import Stencil.Assignment.Invariance
import Stencil.Proofs.Rational
import Stencil.Proofs.Space.Footprint
import Stencil.Proofs.Table

namespace Stencil

open Stencil.Expr

namespace Assignment

variable {α : Type}

def temporary? (a : Assignment α) : Option Field :=
  a.lhs.access?.bind fun x => if x.field.isInput then none else some x.field

inductive Defines (a : Assignment α) : Expr α → Prop
  | scalar {s : String} : a.target? = some s → Defines a (sym s)
  | element {x : Access} : a.temporary? = some x.field → Defines a (access x)

end Assignment

namespace TimeContext

variable {α : Type} {c : TimeContext α} {n : Nat} {e l : Expr α} {ls : List (Expr α)}
  {seen seen' : List String}

inductive Leads (c : TimeContext α) : Expr α → Expr α → Prop
  | read {e l : Expr α} : l ∈ e.subterms → Leads c e l
  | follow {e i d l : Expr α} {name : String} : i ∈ e.subterms →
      c.definition? i = some (name, d) → Leads c d l → Leads c e l

def Functional (c : TimeContext α) : Prop :=
  ∀ i j name d d', c.definition? i = some (name, d) → c.definition? j = some (name, d') → d = d'

def names (c : TimeContext α) : List String := c.scalars.keys ++ c.arrays.keys

theorem depth_eq (c : TimeContext α) : c.depth = c.names.length + 1 := by
  simp [depth, names, Table.size, Table.keys]

theorem definition?_eq_some {name : String} {d : Expr α} (h : c.definition? l = some (name, d)) :
    l = sym name ∧ c.scalars.get? name = some d ∨
      ∃ x, l = access x ∧ x.field.name = name ∧ c.arrays.get? name = some d := by
  cases l with
  | sym s =>
    obtain ⟨d', hget, heq⟩ := Option.map_eq_some_iff.1 h
    obtain ⟨rfl, rfl⟩ := Prod.mk.inj heq
    exact .inl ⟨rfl, hget⟩
  | access x =>
    obtain ⟨d', hget, heq⟩ := Option.map_eq_some_iff.1 h
    obtain ⟨rfl, rfl⟩ := Prod.mk.inj heq
    exact .inr ⟨x, rfl, rfl, hget⟩
  | _ => simp [definition?] at h

theorem isInput_of_definition {name : String} {d : Expr α}
    (h : c.definition? l = some (name, d)) : l.isInput = true := by
  rcases definition?_eq_some h with ⟨rfl, -⟩ | ⟨x, rfl, -⟩ <;> rfl

theorem mem_names_of_definition {name : String} {d : Expr α}
    (h : c.definition? l = some (name, d)) : name ∈ c.names := by
  have hkey : ∀ {t : Table String (Expr α)} {k : String}, t.get? k = some d → k ∈ t.keys :=
    fun hget => List.mem_map_of_mem (Table.mem_of_get? hget)
  rcases definition?_eq_some h with ⟨-, hget⟩ | ⟨x, -, -, hget⟩
  · exact List.mem_append_left _ (hkey hget)
  · exact List.mem_append_right _ (hkey hget)

def visit (c : TimeContext α) (n : Nat) (seen : List String) (leaf : Expr α) :
    Option (List String) :=
  if c.isBound leaf then none
  else
    match c.definition? leaf with
    | some (name, d) => if seen.contains name then some seen else c.follow n d (name :: seen)
    | none => some seen

theorem follow_succ (c : TimeContext α) (n : Nat) (e : Expr α) (seen : List String) :
    c.follow (n + 1) e seen = e.subterms.foldlM (c.visit n) seen := rfl

theorem exists_of_foldlM_eq_none {β γ : Type} {f : β → γ → Option β} {xs : List γ} {b : β}
    (h : xs.foldlM f b = none) : ∃ x ∈ xs, ∃ b, f b x = none := by
  induction xs generalizing b with
  | nil => exact absurd h (Option.some_ne_none b)
  | cons x xs ih =>
    rw [List.foldlM_cons] at h
    cases hx : f b x with
    | none => exact ⟨x, List.mem_cons_self, b, hx⟩
    | some t =>
      rw [hx] at h
      obtain ⟨y, hy, hnone⟩ := ih h
      exact ⟨y, List.mem_cons_of_mem x hy, hnone⟩

theorem exists_of_follow_eq_none (h : c.follow n e seen = none) :
    ∃ l, c.Leads e l ∧ c.isBound l = true := by
  induction n generalizing e seen with
  | zero => exact absurd h (Option.some_ne_none seen)
  | succ n ih =>
    obtain ⟨l, hl, t, hnone⟩ := exists_of_foldlM_eq_none (follow_succ c n e seen ▸ h)
    unfold visit at hnone
    split at hnone
    · rename_i hbound
      exact ⟨l, .read hl, hbound⟩
    · split at hnone
      · rename_i name d hdef
        split at hnone
        · exact absurd hnone (Option.some_ne_none t)
        · obtain ⟨l', hleads, hbound⟩ := ih hnone
          exact ⟨l', .follow hl hdef hleads, hbound⟩
      · exact absurd hnone (Option.some_ne_none t)

def Cleared (c : TimeContext α) (seen : List String) (l : Expr α) : Prop :=
  c.isBound l = false ∧ ∀ name d, c.definition? l = some (name, d) → name ∈ seen

/-- What a search over some leaves has found out: the leaves are cleared, and so are those of all
definitions that it has come to. -/
structure Searched (c : TimeContext α) (seen seen' : List String) (ls : List (Expr α)) : Prop where
  mono : seen ⊆ seen'
  leaves : ∀ l ∈ ls, c.Cleared seen' l
  definitions : ∀ i name d, c.definition? i = some (name, d) → name ∈ seen' →
    name ∈ seen ∨ ∀ l ∈ d.subterms, c.Cleared seen' l

theorem Cleared.mono (h : c.Cleared seen l) (hsub : seen ⊆ seen') : c.Cleared seen' l :=
  ⟨h.1, fun name d hdef => hsub (h.2 name d hdef)⟩

theorem cleared_of_definition {name : String} {d : Expr α} (hfree : c.isBound l = false)
    (hdef : c.definition? l = some (name, d)) (hname : name ∈ seen) : c.Cleared seen l := by
  refine ⟨hfree, fun name' d' hdef' => ?_⟩
  obtain ⟨rfl, -⟩ := Prod.mk.inj (Option.some.inj (hdef.symm.trans hdef'))
  exact hname

theorem Searched.cons {t : List String} (hl : c.Searched seen t [l])
    (hls : c.Searched t seen' ls) : c.Searched seen seen' (l :: ls) where
  mono := List.Subset.trans hl.mono hls.mono
  leaves := List.forall_mem_cons.2
    ⟨(hl.leaves l (List.mem_singleton_self l)).mono hls.mono, hls.leaves⟩
  definitions i name d hdef hname := by
    rcases hls.definitions i name d hdef hname with ht | hd
    · exact (hl.definitions i name d hdef ht).imp_right fun hd a ha => (hd a ha).mono hls.mono
    · exact .inr hd

structure Room (c : TimeContext α) (n : Nat) (seen : List String) : Prop where
  nodup : seen.Nodup
  defined : seen ⊆ c.names
  fuel : c.depth ≤ n + seen.length

theorem Room.pos (h : c.Room n seen) : 0 < n := by
  have hlen := (h.nodup.subperm h.defined).length_le
  have hfuel := h.fuel
  rw [depth_eq] at hfuel
  omega

theorem Room.cons {name : String} (h : c.Room (n + 1) seen) (hnew : name ∉ seen)
    (hname : name ∈ c.names) : c.Room n (name :: seen) where
  nodup := List.nodup_cons.2 ⟨hnew, h.nodup⟩
  defined := List.cons_subset.2 ⟨hname, h.defined⟩
  fuel := by
    have hfuel := h.fuel
    rw [List.length_cons]
    omega

theorem Room.succ (h : c.Room n seen) : c.Room (n + 1) seen :=
  ⟨h.nodup, h.defined, by have hfuel := h.fuel; omega⟩

def Searches (c : TimeContext α) (n : Nat) : Prop :=
  ∀ {e : Expr α} {seen seen' : List String}, c.Room n seen → c.follow n e seen = some seen' →
    c.Room n seen' ∧ c.Searched seen seen' e.subterms

theorem Searches.visit (hn : c.Searches n) (hc : c.Functional) (hroom : c.Room (n + 1) seen)
    (h : c.visit n seen l = some seen') : c.Room (n + 1) seen' ∧ c.Searched seen seen' [l] := by
  unfold TimeContext.visit at h
  split at h
  · exact absurd h.symm (Option.some_ne_none seen')
  · rename_i hfree
    rw [Bool.not_eq_true] at hfree
    split at h
    · rename_i name d hdef
      split at h
      · rename_i hseen
        obtain rfl := Option.some.inj h
        refine ⟨hroom, List.Subset.refl _, List.forall_mem_singleton.2 ?_, fun _ _ _ _ => .inl⟩
        exact cleared_of_definition hfree hdef (List.contains_iff_mem.1 hseen)
      · rename_i hnew
        rw [List.contains_iff_mem] at hnew
        -- a new name costs one level of fuel and leaves room for one name less
        obtain ⟨hroom', hsearched⟩ := hn (hroom.cons hnew (mem_names_of_definition hdef)) h
        obtain ⟨hname, hsub⟩ := List.cons_subset.1 hsearched.mono
        refine ⟨hroom'.succ, hsub, List.forall_mem_singleton.2 ?_, fun i name' d' hdef' hname' => ?_⟩
        · exact cleared_of_definition hfree hdef hname
        · rcases hsearched.definitions i name' d' hdef' hname' with hold | hd
          · rcases List.mem_cons.1 hold with rfl | hold
            · obtain rfl := hc l i name' d d' hdef hdef'
              exact .inr hsearched.leaves
            · exact .inl hold
          · exact .inr hd
    · rename_i hnone
      obtain rfl := Option.some.inj h
      refine ⟨hroom, List.Subset.refl _, List.forall_mem_singleton.2 ⟨hfree, fun name d hdef => ?_⟩,
        fun _ _ _ _ => .inl⟩
      exact absurd (hnone.symm.trans hdef).symm (Option.some_ne_none _)

theorem Searches.foldlM (hn : c.Searches n) (hc : c.Functional) (hroom : c.Room (n + 1) seen)
    (h : ls.foldlM (c.visit n) seen = some seen') :
    c.Room (n + 1) seen' ∧ c.Searched seen seen' ls := by
  induction ls generalizing seen with
  | nil =>
    obtain rfl := Option.some.inj h
    exact ⟨hroom, List.Subset.refl _, List.forall_mem_nil _, fun _ _ _ _ => .inl⟩
  | cons l ls ih =>
    rw [List.foldlM_cons] at h
    obtain ⟨t, ht, hrest⟩ := Option.bind_eq_some_iff.1 h
    obtain ⟨hroom', hfirst⟩ := hn.visit hc hroom ht
    obtain ⟨hroom'', hothers⟩ := ih hroom' hrest
    exact ⟨hroom'', hfirst.cons hothers⟩

theorem searches (hc : c.Functional) (n : Nat) : c.Searches n := by
  induction n with
  | zero => exact fun hroom _ => absurd hroom.pos (Nat.lt_irrefl 0)
  | succ n ih => exact fun hroom h => ih.foldlM hc hroom h

theorem isInvariant_eq_false_iff_leads (hc : c.Functional) :
    c.isInvariant e = false ↔ ∃ l, c.Leads e l ∧ c.isBound l = true := by
  rw [isInvariant, Option.isSome_eq_false_iff, Option.isNone_iff_eq_none]
  constructor
  · exact exists_of_follow_eq_none
  · rintro ⟨l, hleads, hbound⟩
    cases hfollow : c.follow c.depth e [] with
    | none => rfl
    | some seen =>
      have hroom : c.Room c.depth [] := ⟨List.nodup_nil, List.nil_subset _, Nat.le_refl _⟩
      obtain ⟨-, hsearched⟩ := searches hc c.depth hroom hfollow
      -- the definitions of the names that the search has seen are cleared as well, so that what is
      -- led to stays among cleared leaves
      have hfree : ∀ {e l : Expr α}, c.Leads e l → (∀ i ∈ e.subterms, c.Cleared seen i) →
          c.isBound l = false := by
        intro e l hleads
        induction hleads with
        | read hl => exact fun hcleared => (hcleared _ hl).1
        | follow hi hdef _ ih =>
          intro hcleared
          have hname := (hcleared _ hi).2 _ _ hdef
          exact ih ((hsearched.definitions _ _ _ hdef hname).resolve_left List.not_mem_nil)
      exact absurd (hfree hleads hsearched.leaves) (by rw [hbound]; exact Bool.noConfusion)

section Assignments

variable {as : List (Assignment α)} {a : Assignment α} {e' d : Expr α}

/-- What is read when the definitions among some assignments are followed, any number of times. -/
inductive Reaches (as : List (Assignment α)) : Expr α → Expr α → Prop
  | read {e l : Expr α} : l ∈ e.inputs → Reaches as e l
  | follow {e i l : Expr α} {a : Assignment α} : i ∈ e.inputs → a ∈ as → a.Defines i →
      Reaches as a.rhs l → Reaches as e l

/-- The leaves that vary by themselves: what is read through a time subscript, and the symbols
that stand for a position along a time dimension. -/
inductive Varies (as : List (Assignment α)) : Expr α → Prop
  | access {x : Access} {d : Dimension} : d ∈ x.dimensions → d.isTime = true →
      Varies as (access x)
  | symbol {a : Assignment α} {d : Dimension} : a ∈ as → d ∈ a.dimensions → d.isTime = true →
      Varies as (sym d.name)

def fieldsOf (as : List (Assignment α)) (e : Expr α) : List Field :=
  (as.flatMap Assignment.accesses ++ e.accesses).map Access.field

/-- No scalar and no temporary array is defined twice, and nothing shares its name. -/
structure WellNamed (as : List (Assignment α)) (e : Expr α) : Prop where
  scalars : (as.filterMap Assignment.target?).Nodup
  temporaries : (as.filterMap Assignment.temporary?).Nodup
  fields : ∀ f ∈ fieldsOf as e, ∀ g ∈ fieldsOf as e, f.name = g.name → f = g
  apart : ∀ s ∈ as.filterMap Assignment.target?, ∀ f ∈ fieldsOf as e, f.name ≠ s

theorem field_mem_fieldsOf_of_expr {x : Access} (h : x ∈ e.accesses) :
    x.field ∈ fieldsOf as e :=
  List.mem_map_of_mem (List.mem_append_right _ h)

theorem field_mem_fieldsOf_of_assignment {x : Access} (ha : a ∈ as) (hx : x ∈ a.accesses) :
    x.field ∈ fieldsOf as e :=
  List.mem_map_of_mem (List.mem_append_left _ (List.mem_flatMap.2 ⟨a, ha, hx⟩))

theorem mem_fieldsOf_of_temporary {f : Field} (ha : a ∈ as) (hf : a.temporary? = some f) :
    f ∈ fieldsOf as e := by
  obtain ⟨x, hx, hfield⟩ := Option.bind_eq_some_iff.1 hf
  split at hfield
  · exact absurd hfield.symm (Option.some_ne_none f)
  · obtain rfl := Option.some.inj hfield
    refine field_mem_fieldsOf_of_assignment ha (List.mem_append_left _ ?_)
    exact List.mem_filterMap.2 ⟨a.lhs, mem_subterms_self a.lhs, hx⟩

theorem arrays_ofAssignments (as : List (Assignment α)) : (ofAssignments as).arrays =
    .ofList (as.filterMap fun a =>
      (a.temporary?.map Field.name).map fun name => (name, a.rhs)) := by
  refine congrArg Table.ofList (List.filterMap_congr fun a _ => ?_)
  unfold Assignment.temporary?
  cases a.lhs.access? with
  | none => rfl
  | some x => cases hx : x.field.isInput <;> simp [hx]

namespace WellNamed

theorem get?_scalars (h : WellNamed as e) (s : String) :
    (ofAssignments as).scalars.get? s = some d ↔
      ∃ a ∈ as, a.target? = some s ∧ a.rhs = d :=
  Table.get?_ofList_filterMap h.scalars s d

theorem eq_of_name_eq (h : WellNamed as e) {f g : Field} (ha : a ∈ as)
    (hf : a.temporary? = some f) (hg : g ∈ fieldsOf as e) (hname : f.name = g.name) : f = g :=
  h.fields f (mem_fieldsOf_of_temporary ha hf) g hg hname

theorem nodup_names (h : WellNamed as e) :
    (as.filterMap fun a => a.temporary?.map Field.name).Nodup := by
  rw [← List.map_filterMap]
  refine h.temporaries.map_on fun f hf g hg => ?_
  obtain ⟨a, ha, haf⟩ := List.mem_filterMap.1 hf
  obtain ⟨b, hb, hbg⟩ := List.mem_filterMap.1 hg
  exact h.eq_of_name_eq ha haf (mem_fieldsOf_of_temporary hb hbg)

theorem get?_arrays (h : WellNamed as e) (name : String) :
    (ofAssignments as).arrays.get? name = some d ↔
      ∃ a ∈ as, (∃ f, a.temporary? = some f ∧ f.name = name) ∧ a.rhs = d := by
  rw [arrays_ofAssignments, Table.get?_ofList_filterMap h.nodup_names]
  simp only [Option.map_eq_some_iff]

theorem functional (h : WellNamed as e) : (ofAssignments as).Functional := by
  have happart : ∀ {s d d'}, (ofAssignments as).scalars.get? s = some d →
      (ofAssignments as).arrays.get? s ≠ some d' := by
    intro s d d' hs hx
    obtain ⟨a, ha, htarget, -⟩ := (h.get?_scalars s).1 hs
    obtain ⟨b, hb, ⟨f, hf, hname⟩, -⟩ := (h.get?_arrays s).1 hx
    exact h.apart s (List.mem_filterMap.2 ⟨a, ha, htarget⟩) f (mem_fieldsOf_of_temporary hb hf) hname
  intro i j name d d' hi hj
  rcases definition?_eq_some hi with ⟨-, hd⟩ | ⟨x, -, -, hd⟩ <;>
    rcases definition?_eq_some hj with ⟨-, hd'⟩ | ⟨y, -, -, hd'⟩
  · exact Option.some.inj (hd.symm.trans hd')
  · exact absurd hd' (happart hd)
  · exact absurd hd (happart hd')
  · exact Option.some.inj (hd.symm.trans hd')

theorem exists_definition?_iff (h : WellNamed as e)
    (hl : ∀ x, l = access x → x.field ∈ fieldsOf as e) :
    (∃ name, (ofAssignments as).definition? l = some (name, d)) ↔
      ∃ a ∈ as, a.Defines l ∧ a.rhs = d := by
  constructor
  · rintro ⟨name, hdef⟩
    rcases definition?_eq_some hdef with ⟨rfl, hget⟩ | ⟨x, rfl, rfl, hget⟩
    · obtain ⟨a, ha, htarget, hrhs⟩ := (h.get?_scalars name).1 hget
      exact ⟨a, ha, .scalar htarget, hrhs⟩
    · obtain ⟨a, ha, ⟨f, hf, hname⟩, hrhs⟩ := (h.get?_arrays x.field.name).1 hget
      exact ⟨a, ha, .element (h.eq_of_name_eq ha hf (hl x rfl) hname ▸ hf), hrhs⟩
  · rintro ⟨a, ha, hdefines, rfl⟩
    cases hdefines with
    | scalar htarget =>
      have hget := (h.get?_scalars _).2 ⟨a, ha, htarget, rfl⟩
      exact ⟨_, Option.map_eq_some_iff.2 ⟨_, hget, rfl⟩⟩
    | element hfield =>
      have hget := (h.get?_arrays _).2 ⟨a, ha, ⟨_, hfield, rfl⟩, rfl⟩
      exact ⟨_, Option.map_eq_some_iff.2 ⟨_, hget, rfl⟩⟩

theorem reaches_of_leads (h : WellNamed as e) (hfields : ∀ x ∈ e'.accesses, x.field ∈ fieldsOf as e)
    (hl : l.isInput = true) (hleads : (ofAssignments as).Leads e' l) :
    Reaches as e' l := by
  induction hleads with
  | read hmem => exact .read (mem_inputs.2 ⟨hmem, hl⟩)
  | follow hi hdef _ ih =>
    have hinput := mem_inputs.2 ⟨hi, isInput_of_definition hdef⟩
    obtain ⟨a, ha, hdefines, rfl⟩ := (h.exists_definition?_iff fun x hx =>
      hfields x (mem_accesses.2 (hx ▸ hinput))).1 ⟨_, hdef⟩
    refine .follow hinput ha hdefines (ih (fun x hx => ?_) hl)
    exact field_mem_fieldsOf_of_assignment ha (List.mem_append_right _ hx)

theorem leads_of_reaches (h : WellNamed as e) (hfields : ∀ x ∈ e'.accesses, x.field ∈ fieldsOf as e)
    (hreaches : Reaches as e' l) : (ofAssignments as).Leads e' l := by
  induction hreaches with
  | read hmem => exact .read (mem_inputs.1 hmem).1
  | follow hi ha hdefines _ ih =>
    obtain ⟨name, hdef⟩ := (h.exists_definition?_iff fun x hx =>
      hfields x (mem_accesses.2 (hx ▸ hi))).2 ⟨_, ha, hdefines, rfl⟩
    refine .follow (mem_inputs.1 hi).1 hdef (ih fun x hx => ?_)
    exact field_mem_fieldsOf_of_assignment ha (List.mem_append_right _ hx)

end WellNamed

theorem isBound_iff_varies :
    (ofAssignments as).isBound l = true ↔ Varies as l := by
  constructor
  · intro h
    cases l with
    | sym s =>
      obtain ⟨d, hd, rfl⟩ := List.mem_map.1 (List.contains_iff_mem.1 h)
      obtain ⟨hmem, htime⟩ := List.mem_filter.1 hd
      obtain ⟨a, ha, had⟩ := List.mem_flatMap.1 hmem
      exact .symbol ha had htime
    | access x =>
      obtain ⟨i, hi, hdim⟩ := List.any_eq_true.1 h
      obtain ⟨d, hd, htime⟩ := (Option.any_eq_true _ _).1 hdim
      exact .access (List.mem_filterMap.2 ⟨i, hi, hd⟩) htime
    | _ => exact absurd h Bool.false_ne_true
  · intro h
    cases h with
    | access hd htime =>
      obtain ⟨i, hi, hdim⟩ := List.mem_filterMap.1 hd
      exact List.any_eq_true.2 ⟨i, hi, (Option.any_eq_true _ _).2 ⟨_, hdim, htime⟩⟩
    | symbol ha hd htime =>
      refine List.contains_iff_mem.2 (List.mem_map_of_mem (List.mem_filter.2 ⟨?_, htime⟩))
      exact List.mem_flatMap.2 ⟨_, ha, hd⟩

theorem isInput_of_varies (h : Varies as l) : l.isInput = true := by
  cases h <;> rfl

/-- An expression is taken to vary exactly if the definitions that it reads, and those that these
read, come to something that varies. They may come back to themselves. -/
theorem isInvariant_eq_false_iff (h : WellNamed as e) :
    (ofAssignments as).isInvariant e = false ↔ ∃ l, Reaches as e l ∧ Varies as l := by
  have hfields : ∀ x ∈ e.accesses, x.field ∈ fieldsOf as e := fun x => field_mem_fieldsOf_of_expr
  rw [isInvariant_eq_false_iff_leads h.functional]
  constructor
  · rintro ⟨l, hleads, hbound⟩
    have hvaries := isBound_iff_varies.1 hbound
    exact ⟨l, h.reaches_of_leads hfields (isInput_of_varies hvaries) hleads, hvaries⟩
  · rintro ⟨l, hreaches, hvaries⟩
    exact ⟨l, h.leads_of_reaches hfields hreaches, isBound_iff_varies.2 hvaries⟩

def entangled : List (Assignment ℚ) :=
  let r := Field.temporary "r" [(0, 0)]
  let u := Field.input "u"
  [{ lhs := sym "a", rhs := mul [sym "b", num 2] },
    { lhs := sym "b", rhs := add [sym "a", access ⟨r, [.affine (.space "x") 0]⟩] },
    { lhs := access ⟨r, [.affine (.space "x") 0]⟩,
      rhs := access ⟨u, [.affine (.time "t") 0, .affine (.space "x") 1]⟩ }]

theorem wellNamed_entangled : WellNamed entangled (sym "a") where
  scalars := by decide
  temporaries := by decide
  fields := by decide
  apart := by decide

theorem isInvariant_eq_false_iff_entangled :
    WellNamed entangled (sym "a") ∧
      ∃ l, Reaches entangled (sym "a") l ∧ Varies entangled l :=
  ⟨wellNamed_entangled, (isInvariant_eq_false_iff wellNamed_entangled).1 (by cbv)⟩

end Assignments

end TimeContext

end Stencil
