import Stencil.Assignment.Schedule
import Stencil.Proofs.Assignment.Flow
import Stencil.Proofs.Table

namespace Stencil.Schedule

open Stencil.Expr Stencil.Flow

variable {α : Type}

def Temp (defs : List (Assignment α)) (s : String) : Prop := ∃ d ∈ defs, d.lhs = sym s

structure Deep (defs : List (Assignment α)) (reach : String → Leaves α) (S : Leaves α)
    (e : Expr α) : Prop where
  temps : ∀ t, sym t ∈ e.inputs → Temp defs t → reach t ⊆ S
  others : ∀ i ∈ e.inputs, (∀ t, i = sym t → ¬ Temp defs t) → i ∈ S

def DeepReady (defs : List (Assignment α)) (reach : String → Leaves α)
    (clash : Access → Access → Prop) (P : Leaves α) : List (Assignment α) → Prop
  | [] => True
  | a :: as => Deep defs reach P a.rhs ∧ DeepReady defs reach clash (after clash P a) as

structure Acyclic (defs : List (Assignment α)) (reach : String → Leaves α) (weight : String → Nat) :
    Prop where
  scalar : ∀ d ∈ defs, d.lhs.isSymbol = true
  nodup : (defs.map (·.lhs)).Nodup
  deep : ∀ d ∈ defs, ∀ s, d.lhs = sym s → Deep defs reach (reach s) d.rhs
  lighter : ∀ d ∈ defs, ∀ s t, d.lhs = sym s → sym t ∈ d.rhs.inputs → Temp defs t →
    weight t < weight s

inductive Needed (defs exprs : List (Assignment α)) : String → Prop
  | read {a : Assignment α} {t : String} : a ∈ exprs → sym t ∈ a.rhs.inputs → Temp defs t →
      Needed defs exprs t
  | through {d : Assignment α} {s t : String} : d ∈ defs → d.lhs = sym s → Needed defs exprs s →
      sym t ∈ d.rhs.inputs → Temp defs t → Needed defs exprs t

variable {defs : List (Assignment α)} {reach : String → Leaves α} {weight : String → Nat}
  {clash : Access → Access → Prop} {P P' : Leaves α}

theorem Deep.mono {S S' : Leaves α} {e : Expr α} (h : Deep defs reach S e) (hS : S ⊆ S') :
    Deep defs reach S' e :=
  ⟨fun t ht hd => (h.temps t ht hd).trans hS, fun i hi hd => hS (h.others i hi hd)⟩

theorem reads_iff (e : Expr α) (s : String) : e.reads s = true ↔ sym s ∈ e.inputs := by
  rw [Expr.reads, List.contains_iff_mem, Expr.symbols, List.mem_filterMap, mem_inputs]
  constructor
  · rintro ⟨i, hi, hs⟩
    cases i <;> simp only [symbol?, reduceCtorEq, Option.some.injEq] at hs
    exact ⟨hs ▸ hi, rfl⟩
  · exact fun h => ⟨sym s, h.1, rfl⟩

theorem sym_mem_inputs {e : Expr α} {names : List String} {s : String}
    (h : s ∈ names.filter e.reads) : sym s ∈ e.inputs :=
  (reads_iff e s).1 (List.mem_filter.1 h).2

structure Waiting (defs : List (Assignment α)) (q : Queue α) : Prop where
  named : ∀ x ∈ q.pending.entries, x.2 ∈ defs ∧ x.2.lhs = sym x.1
  nodup : q.pending.keys.Nodup

/-- Every definition waits or is available, those of some weight and more apart. -/
def Covered (defs : List (Assignment α)) (weight : String → Nat) (b : Nat) (P : Leaves α)
    (q : Queue α) : Prop :=
  ∀ d ∈ defs, ∀ s, d.lhs = sym s → weight s < b → (s, d) ∈ q.pending.entries ∨ sym s ∈ P

structure Placed (defs : List (Assignment α)) (clash : Access → Access → Prop) (P : Leaves α)
    (q q' : Queue α) (new : List (Assignment α)) : Prop where
  placed : q'.placed = q.placed ++ new
  pending : q'.pending.entries.Sublist q.pending.entries
  kept : ∀ x ∈ q.pending.entries, x ∈ q'.pending.entries ∨ x.2 ∈ new
  ready : Ready clash P new
  defs : ∀ d ∈ new, d ∈ defs

theorem Waiting.of_sublist {q q' : Queue α} (h : Waiting defs q)
    (hs : q'.pending.entries.Sublist q.pending.entries) : Waiting defs q' :=
  ⟨fun x hx => h.named x (hs.subset hx), h.nodup.sublist (hs.map _)⟩

theorem Placed.refl (q : Queue α) : Placed defs clash P q q [] :=
  ⟨by simp, .refl _, fun _ => .inl, trivial, by simp⟩

theorem Placed.trans {q q₁ q₂ : Queue α} {new₁ new₂ : List (Assignment α)}
    (h₁ : Placed defs clash P q q₁ new₁) (h₂ : Placed defs clash (afterAll clash P new₁) q₁ q₂ new₂) :
    Placed defs clash P q q₂ (new₁ ++ new₂) where
  placed := by rw [h₂.placed, h₁.placed, List.append_assoc]
  pending := h₂.pending.trans h₁.pending
  kept x hx := by
    rcases h₁.kept x hx with hx | hx
    · rcases h₂.kept x hx with hx | hx
      · exact .inl hx
      · exact .inr (List.mem_append_right _ hx)
    · exact .inr (List.mem_append_left _ hx)
  ready := ready_append.2 ⟨h₁.ready, h₂.ready⟩
  defs d hd := by
    rcases List.mem_append.1 hd with hd | hd
    · exact h₁.defs d hd
    · exact h₂.defs d hd

theorem Placed.available {q q' : Queue α} {new : List (Assignment α)}
    (h : Placed defs clash P q q' new) (hs : ∀ d ∈ defs, d.lhs.isSymbol = true) {i : Expr α}
    (hi : i ∈ P) : i ∈ afterAll clash P new :=
  mem_afterAll_scalars (fun d hd => hs d (h.defs d hd)) hi

theorem Placed.covered {b : Nat} {q q' : Queue α} {new : List (Assignment α)}
    (h : Placed defs clash P q q' new) (hcov : Covered defs weight b P q) :
    Covered defs weight b (afterAll clash P new) q' := by
  intro d hd s hs hw
  rcases hcov d hd s hs hw with hmem | hmem
  · rcases h.kept _ hmem with hmem | hmem
    · exact .inl hmem
    · exact .inr (target_mem_afterAll hmem hs)
  · exact .inr (sym_mem_afterAll hmem)

theorem Placed.step {q q' : Queue α} {name : String} {d : Assignment α}
    {new : List (Assignment α)} (hw : Waiting defs q) (hd : (name, d) ∈ q.pending.entries)
    (h : Placed defs clash P { q with pending := q.pending.erase name } q' new)
    (hr : ∀ i ∈ d.rhs.inputs, i ∈ afterAll clash P new) :
    Placed defs clash P q { q' with placed := q'.placed ++ [d] } (new ++ [d]) where
  placed := by rw [h.placed, List.append_assoc]
  pending := h.pending.trans (Table.drop_sublist _ _)
  kept x hx := by
    by_cases hk : x.1 = name
    · have hsome := Table.get?_eq_some_of_mem hw.nodup hx
      rw [hk, Table.get?_eq_some_of_mem hw.nodup hd, Option.some.injEq] at hsome
      exact .inr (by simp [← hsome])
    · rcases h.kept x (Table.mem_drop hx hk) with hx | hx
      · exact .inl hx
      · exact .inr (List.mem_append_left _ hx)
  ready := ready_append.2 ⟨h.ready, hr, trivial⟩
  defs a ha := by
    rcases List.mem_append.1 ha with ha | ha
    · exact h.defs a ha
    · exact List.mem_singleton.1 ha ▸ (hw.named _ hd).1

def needName (n : Nat) (q : Queue α) (name : String) : Queue α :=
  match q.pending.get? name with
  | none => q
  | some d =>
    let q := need n d.rhs { q with pending := q.pending.erase name }
    { q with placed := q.placed ++ [d] }

theorem need_succ (n : Nat) (e : Expr α) (q : Queue α) :
    need (n + 1) e q = (q.pending.keys.filter e.reads).foldl (needName n) q := rfl

/-- What `need` is for: all that an expression reads is available after what it needs has been
placed. The weight of what it reads is below `b`, and so is all that is placed; definitions on the
way to the expression have left the queue, but their weight is `b` or more. -/
def Serves (defs : List (Assignment α)) (reach : String → Leaves α) (weight : String → Nat)
    (clash : Access → Access → Prop) (n : Nat) : Prop :=
  ∀ (e : Expr α) (q : Queue α) (P : Leaves α) (b : Nat), Waiting defs q →
    q.pending.entries.length ≤ n → Deep defs reach P e → Covered defs weight b P q →
    (∀ t, sym t ∈ e.inputs → Temp defs t → weight t < b) →
    ∃ new, Placed defs clash P q (need n e q) new ∧ ∀ i ∈ e.inputs, i ∈ afterAll clash P new

theorem needName_placed (hp : Acyclic defs reach weight) {n : Nat}
    (hn : Serves defs reach weight clash n) {q : Queue α} {P : Leaves α} {b : Nat} {name : String}
    (hw : Waiting defs q) (hlen : q.pending.entries.length ≤ n + 1)
    (hdeep : Temp defs name → reach name ⊆ P) (hcov : Covered defs weight b P q)
    (hb : Temp defs name → weight name < b) :
    ∃ new, Placed defs clash P q (needName n q name) new ∧
      (Temp defs name → sym name ∈ afterAll clash P new) := by
  unfold needName
  cases hget : q.pending.get? name with
  | none =>
    refine ⟨[], .refl q, fun htemp => ?_⟩
    have hlt := hb htemp
    obtain ⟨d, hd, hs⟩ := htemp
    rcases hcov d hd name hs hlt with hmem | hmem
    · rw [Table.get?_eq_some_of_mem hw.nodup hmem] at hget
      exact absurd hget (by simp)
    · exact hmem
  | some d =>
    have hpend := Table.mem_of_get? hget
    obtain ⟨hd, hs⟩ : d ∈ defs ∧ d.lhs = sym name := hw.named _ hpend
    have htemp : Temp defs name := ⟨d, hd, hs⟩
    have hdrop : (q.pending.erase name).entries.length ≤ n := by
      have h := Table.length_drop hpend
      simp only [Table.erase]
      omega
    have hcov' : Covered defs weight (weight name) P { q with pending := q.pending.erase name } := by
      intro d' hd' s hs' hlt
      refine (hcov d' hd' s hs' (hlt.trans (hb htemp))).imp_left fun hmem => ?_
      refine Table.mem_drop hmem fun hsn : s = name => ?_
      exact absurd hlt (by simp [hsn])
    obtain ⟨new, hnew, hr⟩ := hn d.rhs { q with pending := q.pending.erase name } P (weight name)
      (hw.of_sublist (Table.drop_sublist name _)) hdrop
      ((hp.deep d hd name hs).mono (hdeep htemp)) hcov'
      (fun t ht hd' => hp.lighter d hd name t hs ht hd')
    exact ⟨new ++ [d], hnew.step hw hpend hr,
      fun _ => target_mem_afterAll (List.mem_append_right _ List.mem_cons_self) hs⟩

theorem foldl_needName_placed (hp : Acyclic defs reach weight) {n : Nat}
    (hn : Serves defs reach weight clash n) {names : List String} {q : Queue α} {P : Leaves α}
    {b : Nat} (hw : Waiting defs q) (hlen : q.pending.entries.length ≤ n + 1)
    (hdeep : ∀ s ∈ names, Temp defs s → reach s ⊆ P) (hcov : Covered defs weight b P q)
    (hb : ∀ s ∈ names, Temp defs s → weight s < b) :
    ∃ new, Placed defs clash P q (names.foldl (needName n) q) new ∧
      ∀ s ∈ names, Temp defs s → sym s ∈ afterAll clash P new := by
  induction names generalizing q P with
  | nil => exact ⟨[], .refl q, by simp⟩
  | cons name names ih =>
    obtain ⟨new₁, h₁, hmem₁⟩ := needName_placed hp hn hw hlen (hdeep name List.mem_cons_self) hcov
      (hb name List.mem_cons_self)
    obtain ⟨new₂, h₂, hmem₂⟩ := ih (hw.of_sublist h₁.pending) (h₁.pending.length_le.trans hlen)
      (fun s hs ht i hi => h₁.available hp.scalar (hdeep s (List.mem_cons_of_mem name hs) ht hi))
      (h₁.covered hcov) (fun s hs => hb s (List.mem_cons_of_mem name hs))
    refine ⟨new₁ ++ new₂, h₁.trans h₂, fun s hs htemp => ?_⟩
    rw [afterAll_append]
    rcases List.mem_cons.1 hs with rfl | hs
    · exact sym_mem_afterAll (hmem₁ htemp)
    · exact hmem₂ s hs htemp

theorem need_serves (hp : Acyclic defs reach weight) (n : Nat) :
    Serves defs reach weight clash n := by
  induction n with
  | zero =>
    intro e q P b hw hn hdeep hcov hb
    refine ⟨[], .refl q, fun i hi => ?_⟩
    have hempty := List.eq_nil_of_length_eq_zero (Nat.le_zero.1 hn)
    by_cases ht : ∃ t, i = sym t ∧ Temp defs t
    · obtain ⟨t, rfl, d, hd, hs⟩ := ht
      have h := hcov d hd t hs (hb t hi ⟨d, hd, hs⟩)
      simpa [hempty, afterAll] using h
    · exact hdeep.others i hi fun t hit htemp => ht ⟨t, hit, htemp⟩
  | succ n ih =>
    intro e q P b hw hn hdeep hcov hb
    obtain ⟨new, hnew, hmem⟩ := foldl_needName_placed hp ih hw hn
      (fun s hs => hdeep.temps s (sym_mem_inputs hs)) hcov (fun s hs => hb s (sym_mem_inputs hs))
    refine ⟨new, need_succ n e q ▸ hnew, fun i hi => ?_⟩
    by_cases ht : ∃ t, i = sym t ∧ Temp defs t
    · obtain ⟨t, rfl, d, hd, hs⟩ := ht
      rcases hcov d hd t hs (hb t hi ⟨d, hd, hs⟩) with hpend | hpend
      · refine hmem t (List.mem_filter.2 ⟨?_, (reads_iff e t).2 hi⟩) ⟨d, hd, hs⟩
        exact List.mem_map.2 ⟨_, hpend, rfl⟩
      · exact sym_mem_afterAll hpend
    · exact hnew.available hp.scalar (hdeep.others i hi fun t hit htemp => ht ⟨t, hit, htemp⟩)

def place (n : Nat) (q : Queue α) (a : Assignment α) : Queue α :=
  let q := need n a.rhs q
  { q with placed := q.placed ++ [a] }

structure Woven (defs : List (Assignment α)) (clash : Access → Access → Prop) (P : Leaves α)
    (q q' : Queue α) (as new : List (Assignment α)) : Prop where
  placed : q'.placed = q.placed ++ new
  pending : q'.pending.entries.Sublist q.pending.entries
  kept : ∀ x ∈ q.pending.entries, x ∈ q'.pending.entries ∨ x.2 ∈ new
  ready : Ready clash P new
  subset : as ⊆ new
  origin : ∀ a ∈ new, a ∈ as ∨ a ∈ defs
  stores : new.filter (·.lhs.isAccess) = as.filter (·.lhs.isAccess)

theorem foldl_place_woven (hp : Acyclic defs reach weight) {n b : Nat}
    (hb : ∀ t, Temp defs t → weight t < b) {as : List (Assignment α)} {q : Queue α}
    {P P' : Leaves α} (hw : Waiting defs q) (hlen : q.pending.entries.length ≤ n)
    (hsub : P ⊆ P') (hdeep : DeepReady defs reach clash P as) (hcov : Covered defs weight b P' q) :
    ∃ new, Woven defs clash P' q (as.foldl (place n) q) as new := by
  induction as generalizing q P P' with
  | nil => exact ⟨[], by simp, .refl _, fun _ => .inl, trivial, by simp, by simp, rfl⟩
  | cons a as ih =>
    have hserves : Serves defs reach weight clash n := need_serves hp n
    obtain ⟨new₁, h₁, hmem⟩ := hserves a.rhs q P' b hw hlen
      (hdeep.1.mono hsub) hcov fun t _ => hb t
    have hcov₁ := h₁.covered hcov
    have hsub₁ : after clash P a ⊆ after clash (afterAll clash P' new₁) a :=
      after_mono fun i hi => h₁.available hp.scalar (hsub hi)
    obtain ⟨new₂, h₂⟩ := ih (q := place n q a) (hw.of_sublist h₁.pending)
      (h₁.pending.length_le.trans hlen) hsub₁ hdeep.2
      (fun d hd s hs hlt => (hcov₁ d hd s hs hlt).imp_right sym_mem_after)
    refine ⟨new₁ ++ a :: new₂, ?_, ?_, ?_, ?_, ?_, ?_, ?_⟩
    · rw [List.foldl_cons, h₂.placed, place, h₁.placed]
      simp
    · exact h₂.pending.trans h₁.pending
    · intro x hx
      rcases h₁.kept x hx with hx | hx
      · exact (h₂.kept x hx).imp_right fun h => by simp [h]
      · exact .inr (by simp [hx])
    · exact ready_append.2 ⟨h₁.ready, hmem, h₂.ready⟩
    · exact List.cons_subset.2 ⟨by simp, fun c hc => by simp [h₂.subset hc]⟩
    · intro c hc
      rcases List.mem_append.1 hc with hc | hc
      · exact .inr (h₁.defs c hc)
      · rcases List.mem_cons.1 hc with rfl | hc
        · exact .inl List.mem_cons_self
        · exact (h₂.origin c hc).imp_left (List.mem_cons_of_mem a)
    · have hnone : new₁.filter (·.lhs.isAccess) = [] := by
        rw [List.filter_eq_nil_iff]
        intro d hd
        have hsym := hp.scalar d (h₁.defs d hd)
        cases hl : d.lhs <;> simp_all [isSymbol, isAccess]
      rw [List.filter_append, hnone, List.nil_append, List.filter_cons, List.filter_cons, h₂.stores]

theorem effects_of_stores [AlgebraicField α] [Arithmetic α] (ρ : Expr α → α)
    {as bs : List (Assignment α)}
    (h : as.filter (·.lhs.isAccess) = bs.filter (·.lhs.isAccess)) : effects ρ as = effects ρ bs := by
  have hfilter : ∀ cs : List (Assignment α),
      effects ρ cs = effects ρ (cs.filter (·.lhs.isAccess)) := by
    intro cs
    rw [effects, effects, List.filterMap_filter]
    congr 1
    funext a
    cases hl : a.lhs <;> simp [isAccess, access?]
  rw [hfilter as, h, ← hfilter]

def start (defs : List (Assignment α)) : Queue α :=
  ⟨.ofList (defs.filterMap fun d => d.target?.map fun s => (s, d)), []⟩

theorem map_sym_targets {ds : List (Assignment α)} (h : ∀ d ∈ ds, d.lhs.isSymbol = true) :
    (ds.filterMap Assignment.target?).map sym = ds.map (·.lhs) := by
  induction ds with
  | nil => rfl
  | cons d ds ih =>
    have htail := ih fun a ha => h a (List.mem_cons_of_mem d ha)
    have hd := h d List.mem_cons_self
    cases hl : d.lhs with
    | sym s => simp [Assignment.target?, hl, symbol?, htail]
    | _ => simp [hl, isSymbol] at hd

theorem nodup_start (hscalar : ∀ d ∈ defs, d.lhs.isSymbol = true)
    (hnodup : (defs.map (·.lhs)).Nodup) :
    ((defs.filterMap fun d => d.target?.map fun s => (s, d)).map (·.1)).Nodup := by
  have hsym := map_sym_targets hscalar
  have hnames : (defs.filterMap fun d => d.target?.map fun s => (s, d)).map (·.1) =
      defs.filterMap Assignment.target? := by
    rw [List.map_filterMap]
    congr 1
    funext d
    simp [Option.map_map, Function.comp_def]
  rw [hnames]
  exact List.Nodup.of_map sym (hsym ▸ hnodup)

theorem mem_start (hp : Acyclic defs reach weight) {d : Assignment α} {s : String} :
    (s, d) ∈ (start defs).pending.entries ↔ d ∈ defs ∧ d.lhs = sym s := by
  rw [start, Table.entries_ofList (nodup_start hp.scalar hp.nodup), List.mem_filterMap]
  constructor
  · rintro ⟨d', hd', hs⟩
    rw [Assignment.target?, Option.map_eq_some_iff] at hs
    obtain ⟨t, ht, heq⟩ := hs
    obtain ⟨rfl, rfl⟩ := Prod.mk.injEq _ _ _ _ ▸ heq
    refine ⟨hd', ?_⟩
    cases hl : d'.lhs <;> simp_all [symbol?]
  · rintro ⟨hd, hs⟩
    exact ⟨d, hd, by simp [Assignment.target?, hs, symbol?]⟩

theorem schedule_eq (defs exprs : List (Assignment α)) :
    schedule defs exprs =
      (exprs.foldl (place (start defs).pending.size) (start defs)).placed ++
        (exprs.foldl (place (start defs).pending.size) (start defs)).pending.values := rfl

theorem waiting_start (hp : Acyclic defs reach weight) : Waiting defs (start defs) where
  named x hx := (mem_start hp).1 hx
  nodup := by
    rw [Table.keys, start, Table.entries_ofList (nodup_start hp.scalar hp.nodup)]
    exact nodup_start hp.scalar hp.nodup

theorem Needed.available {exprs placed : List (Assignment α)} (hp : Acyclic defs reach weight)
    (hfresh : ∀ t, Temp defs t → sym t ∉ P) (hr : Ready clash P placed) (hsub : exprs ⊆ placed)
    (horigin : ∀ a ∈ placed, a ∈ exprs ∨ a ∈ defs)
    (htarget : ∀ a ∈ exprs, ∀ t, Temp defs t → a.lhs ≠ sym t) {t : String}
    (h : Needed defs exprs t) : sym t ∈ afterAll clash P placed := by
  induction h with
  | read ha ht _ => exact hr.sym_mem_afterAll (hsub ha) ht
  | @through d s t hd hs _ ht htemp ih =>
    rcases mem_afterAll ih with hP | ⟨a, ha, has, -⟩
    · exact absurd hP (hfresh s ⟨d, hd, hs⟩)
    · rcases horigin a ha with hexpr | hdef
      · exact absurd has (htarget a hexpr s ⟨d, hd, hs⟩)
      · have had : a = d := List.inj_on_of_nodup_map hp.nodup hdef hd (has.trans hs.symm)
        exact hr.sym_mem_afterAll ha (had ▸ ht)

theorem exists_weight_bound (defs : List (Assignment α)) (weight : String → Nat) :
    ∃ b, ∀ t, Temp defs t → weight t < b := by
  induction defs with
  | nil => exact ⟨0, fun t ⟨d, hd, _⟩ => absurd hd List.not_mem_nil⟩
  | cons d ds ih =>
    obtain ⟨b, hb⟩ := ih
    obtain ⟨c, hc⟩ : ∃ c, ∀ s, d.lhs = sym s → weight s < c := by
      cases hl : d.lhs with
      | sym s => exact ⟨weight s + 1, fun t ht => by obtain rfl := sym.inj ht; omega⟩
      | _ => exact ⟨0, fun t ht => by simp at ht⟩
    refine ⟨max b c, fun t ⟨a, ha, hs⟩ => ?_⟩
    rcases List.mem_cons.1 ha with rfl | ha
    · exact (hc t hs).trans_le (le_max_right b c)
    · exact (hb t ⟨a, ha, hs⟩).trans_le (le_max_left b c)

theorem schedule_split (hp : Acyclic defs reach weight) {live dead : List (Assignment α)}
    (hlive : DeepReady defs reach clash P live)
    (hdead : DeepReady defs reach never (afterAll never P live) dead)
    (hscalars : ∀ a ∈ dead, a.lhs.isSymbol = true)
    (hneeded : ∀ d ∈ defs, ∀ t, sym t ∈ d.rhs.inputs → Temp defs t → Needed defs (live ++ dead) t)
    (hreach : ∀ t, Temp defs t → reach t ⊆ afterAll never P (live ++ dead))
    (hfresh : ∀ t, Temp defs t → sym t ∉ P ∧ ∀ a ∈ live ++ dead, a.lhs ≠ sym t) :
    ∃ live' dead', schedule defs (live ++ dead) = live' ++ dead' ∧ Split clash P live' dead' ∧
      (live' ++ dead').filter (·.lhs.isAccess) = (live ++ dead).filter (·.lhs.isAccess) ∧
      (∀ a ∈ live' ++ dead', a ∈ live ++ dead ∨ a ∈ defs) ∧ ∀ a ∈ dead', a ∈ dead ∨ a ∈ defs := by
  obtain ⟨b, hb⟩ := exists_weight_bound defs weight
  have hw := waiting_start hp
  -- Every definition waits at the start, and after the first part it still waits or is placed.
  have hcov : Covered defs weight b P (start defs) := fun d hd s hs _ =>
    .inl ((mem_start hp).2 ⟨hd, hs⟩)
  obtain ⟨live', h₁⟩ := foldl_place_woven hp hb hw le_rfl subset_rfl hlive hcov
  have hcov₁ : Covered defs weight b (afterAll never P live')
      (live.foldl (place (start defs).pending.entries.length) (start defs)) := by
    intro d hd s hs _
    rcases h₁.kept _ ((mem_start hp).2 ⟨hd, hs⟩) with hmem | hmem
    · exact .inl hmem
    · exact .inr (target_mem_afterAll hmem hs)
  obtain ⟨rest, h₂⟩ := foldl_place_woven hp hb (hw.of_sublist h₁.pending) h₁.pending.length_le
    (afterAll_never_subset subset_rfl h₁.subset) hdead hcov₁
  set q := dead.foldl (place (start defs).pending.entries.length)
    (live.foldl (place (start defs).pending.entries.length) (start defs)) with hq
  have hplaced : q.placed = live' ++ rest := by
    rw [h₂.placed, h₁.placed, start, List.nil_append]
  have hwait : Waiting defs q := (hw.of_sublist h₁.pending).of_sublist h₂.pending
  have hvalues : ∀ d ∈ q.pending.values, d ∈ defs := by
    intro d hd
    obtain ⟨x, hx, rfl⟩ := List.mem_map.1 hd
    exact (hwait.named x hx).1
  have hready : Ready never P (live' ++ rest) :=
    ready_append.2 ⟨h₁.ready.weaken, h₂.ready⟩
  have hsub : live ++ dead ⊆ live' ++ rest :=
    List.append_subset.2 ⟨List.subset_append_of_subset_left _ h₁.subset,
      List.subset_append_of_subset_right _ h₂.subset⟩
  have horigin : ∀ a ∈ live' ++ rest, a ∈ live ++ dead ∨ a ∈ defs := by
    intro a ha
    rcases List.mem_append.1 ha with ha | ha
    · exact (h₁.origin a ha).imp_left (List.mem_append_left _)
    · exact (h₂.origin a ha).imp_left (List.mem_append_right _)
  refine ⟨live', rest ++ q.pending.values, ?_, ⟨h₁.ready, ?_, ?_⟩, ?_, ?_, fun a ha => ?_⟩
  · rw [schedule_eq, List.foldl_append, Table.size, ← hq, hplaced, List.append_assoc]
  · -- What is still waiting at the end reads nothing that is not needed, and that has been placed.
    refine ready_append.2 ⟨h₂.ready, ?_⟩
    rw [← afterAll_append]
    refine ready_never fun d hd i hi => ?_
    have hdef := hvalues d hd
    by_cases ht : ∃ t, i = sym t ∧ Temp defs t
    · obtain ⟨t, rfl, htemp⟩ := ht
      exact (hneeded d hdef t hi htemp).available hp (fun t ht => (hfresh t ht).1) hready hsub
        horigin fun a ha t ht => (hfresh t ht).2 a ha
    · obtain ⟨s, hs⟩ := exists_sym (hp.scalar d hdef)
      have hi' := (hp.deep d hdef s hs).others i hi fun t hit htemp => ht ⟨t, hit, htemp⟩
      exact afterAll_never_subset subset_rfl hsub (hreach s ⟨d, hdef, hs⟩ hi')
  · intro a ha
    rcases List.mem_append.1 ha with ha | ha
    · rcases h₂.origin a ha with ha | ha
      · exact hscalars a ha
      · exact hp.scalar a ha
    · exact hp.scalar a (hvalues a ha)
  · have hnone : q.pending.values.filter (·.lhs.isAccess) = [] := by
      rw [List.filter_eq_nil_iff]
      intro d hd
      have hsym := hp.scalar d (hvalues d hd)
      cases hl : d.lhs <;> simp_all [isSymbol, isAccess]
    rw [List.filter_append, List.filter_append, hnone, List.append_nil, h₁.stores, h₂.stores,
      List.filter_append]
  · intro a ha
    rw [← List.append_assoc] at ha
    rcases List.mem_append.1 ha with ha | ha
    · exact horigin a ha
    · exact .inr (hvalues a ha)
  · rcases List.mem_append.1 ha with ha | ha
    · exact h₂.origin a ha
    · exact .inr (hvalues a ha)

def Queue.all (q : Queue α) : List (Assignment α) := q.placed ++ q.pending.values

theorem need_perm (n : Nat) (e : Expr α) (q : Queue α) : (need n e q).all.Perm q.all := by
  induction n generalizing e q with
  | zero => exact .refl _
  | succ n ih =>
    rw [need_succ]
    generalize q.pending.keys.filter e.reads = names
    induction names generalizing q with
    | nil => exact .refl _
    | cons name names ihn =>
      refine (ihn (needName n q name)).trans ?_
      unfold needName
      cases hget : q.pending.get? name with
      | none => exact .refl _
      | some d =>
        have hrest := ih d.rhs { q with pending := q.pending.erase name }
        simp only [Queue.all, List.append_assoc] at hrest ⊢
        have hback : (d :: (q.placed ++ (q.pending.erase name).values)).Perm
            (q.placed ++ q.pending.values) :=
          List.perm_middle.symm.trans ((Table.perm_values_erase hget).symm.append_left _)
        exact (List.perm_middle.trans (hrest.cons d)).trans hback

theorem foldl_place_perm (n : Nat) (as : List (Assignment α)) (q : Queue α) :
    (as.foldl (place n) q).all.Perm (as ++ q.all) := by
  induction as generalizing q with
  | nil => exact .refl _
  | cons a as ih =>
    have hplace : (place n q a).all.Perm (a :: q.all) := by
      apply List.Perm.trans _ ((need_perm n a.rhs q).cons a)
      simp only [place, Queue.all, List.append_assoc]
      exact List.perm_middle
    refine (ih (place n q a)).trans ((hplace.append_left as).trans ?_)
    exact List.perm_middle

theorem values_start (hscalar : ∀ d ∈ defs, d.lhs.isSymbol = true)
    (hnodup : (defs.map (·.lhs)).Nodup) : (start defs).pending.values = defs := by
  rw [Table.values, start, Table.entries_ofList (nodup_start hscalar hnodup), List.map_filterMap]
  refine (List.filterMap_congr fun d hd => ?_).trans List.filterMap_some
  obtain ⟨s, hs⟩ := exists_sym (hscalar d hd)
  simp [Assignment.target?, hs, symbol?]

theorem schedule_perm (hscalar : ∀ d ∈ defs, d.lhs.isSymbol = true)
    (hnodup : (defs.map (·.lhs)).Nodup) (exprs : List (Assignment α)) :
    (schedule defs exprs).Perm (exprs ++ defs) := by
  have hperm := foldl_place_perm (start defs).pending.size exprs (start defs)
  have hall : (start defs).all = defs := values_start hscalar hnodup
  rw [hall] at hperm
  exact hperm

end Stencil.Schedule
