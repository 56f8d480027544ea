import Mathlib.Order.Interval.Set.UnorderedInterval
import Stencil.Proofs.Execution.Itinerary

/-!
The order of the visits of a walk. Two visits part at some level: up to there they are in the same
iteration of loops that their clusters share. There either the clusters share no further loop, and
the one that is first in the list goes first, or the next loop has different values at them, and
its direction decides. The first cluster among those that share a loop gives it its direction.
-/

namespace Stencil.Nest

variable {α : Type} {bounds : Dimension → Option (Int × Int)} {cs : List (Cluster α)}
  {c c' c'' : Cluster α} {n k k' depth : Nat} {ws : List Int}

def Agree (k : Nat) (c c' : Cluster α) : Prop :=
  ∀ l < k, ∃ iv, level? l c = some iv ∧ level? l c' = some iv

theorem Agree.symm (h : Agree k c c') : Agree k c' c := fun l hl =>
  let ⟨iv, hc, hc'⟩ := h l hl
  ⟨iv, hc', hc⟩

theorem Agree.trans (h : Agree k c c') (h' : Agree k c' c'') : Agree k c c'' := fun l hl => by
  obtain ⟨iv, hc, hc'⟩ := h l hl
  obtain ⟨iv', hc₁, hc''⟩ := h' l hl
  rw [hc', Option.some.injEq] at hc₁
  exact ⟨iv, hc, hc₁ ▸ hc''⟩

theorem Agree.le_size (h : Agree k c c') : k ≤ c.space.box.size := by
  by_contra hlt
  obtain ⟨iv, hiv, -⟩ := h c.space.box.size (by omega)
  exact absurd (List.getElem?_eq_some_iff.1 hiv).1 (lt_irrefl _)

def Descends (k : Nat) (c : Cluster α) : Prop :=
  ∃ iv, level? k c = some iv ∧ c.space.direction iv.dim = .backward

def Ahead (k : Nat) (c : Cluster α) (v w : Int) : Prop :=
  Descends k c ∧ w < v ∨ ¬ Descends k c ∧ v < w

theorem Ahead.ne {v w : Int} (h : Ahead k c v w) : v ≠ w := by
  rcases h with ⟨-, h⟩ | ⟨-, h⟩ <;> omega

theorem Ahead.asymm {v w : Int} (h : Ahead k c v w) : ¬ Ahead k c w v := by
  unfold Ahead at *
  by_cases hd : Descends k c <;> simp only [hd, true_and, not_true, false_and, or_false,
    false_or, not_false_eq_true] at * <;> omega

theorem pairwise_values {iv : Interval} (h : level? k c = some iv) (b : Int × Int) :
    (values c iv b).Pairwise (Ahead k c) := by
  have hdescends : Descends k c ↔ c.space.direction iv.dim = .backward :=
    ⟨fun ⟨iv', h', hdir⟩ => Option.some.inj (h.symm.trans h') ▸ hdir, fun hdir => ⟨iv, h, hdir⟩⟩
  unfold values
  dsimp only
  split
  · rename_i hdir
    exact List.pairwise_reverse.2 ((Grid.pairwise_range _ _).imp fun h => .inl ⟨hdescends.2 hdir, h⟩)
  · rename_i hdir
    exact (Grid.pairwise_range _ _).imp fun h => .inr ⟨hdescends.not.2 hdir, h⟩

/-- Whether two places share the outermost `k` loops: their clusters have the same intervals
there, as have all between them. -/
def Shares (cs : List (Cluster α)) (k : Nat) (i j : Fin cs.length) : Prop :=
  ∀ l ∈ Set.uIcc i j, Agree k (cs.get i) (cs.get l)

namespace Shares

variable {i j l : Fin cs.length}

theorem agree (h : Shares cs k i j) : Agree k (cs.get i) (cs.get j) := h j Set.right_mem_uIcc

theorem symm (h : Shares cs k i j) : Shares cs k j i := fun l hl =>
  h.agree.symm.trans (h l (Set.uIcc_comm i j ▸ hl))

theorem of_mem (h : Shares cs k i j) (hl : l ∈ Set.uIcc i j) : Shares cs k i l := fun m hm =>
  h m (Set.uIcc_subset_uIcc_left hl hm)

theorem trans (h : Shares cs k i j) (h' : Shares cs k j l) : Shares cs k i l := fun m hm => by
  rcases Set.uIcc_subset_uIcc_union_uIcc hm with hm | hm
  · exact h m hm
  · exact h.agree.trans (h' m hm)

theorem mono (h : Shares cs k i j) (hk : k' ≤ k) : Shares cs k' i j := fun l hl m hm =>
  h l hl m (by omega)

end Shares

section Runs

variable {i j : Fin cs.length} {is part part' : List (Fin cs.length)}

structure Run (depth : Nat) (is : List (Fin cs.length)) : Prop where
  sorted : is.Pairwise (· < ·)
  mem_iff : ∀ i ∈ is, ∀ j, j ∈ is ↔ Shares cs depth i j

theorem run_finRange : Run 0 (List.finRange cs.length) where
  sorted := List.pairwise_lt_finRange _
  mem_iff i _ j := by simp [Shares, Agree]

theorem exists_between {parts : List (List (Fin cs.length))} (hne : [] ∉ parts)
    (hsorted : parts.flatten.Pairwise (· < ·))
    (hsame : ∀ part ∈ parts, ∀ i ∈ part, ∀ j ∈ part,
      level? depth (cs.get i) = level? depth (cs.get j))
    (hends : parts.IsChain fun a b => ∃ ha hb,
      (level? depth (cs.get (a.getLast ha)) == level? depth (cs.get (b.head hb))) = false) :
    parts.Pairwise fun a b => ∀ i ∈ a, ∀ j ∈ b, ∃ l, i < l ∧ l ≤ j ∧
      level? depth (cs.get l) ≠ level? depth (cs.get i) := by
  induction parts with
  | nil => exact .nil
  | cons a parts ih =>
    rw [List.mem_cons, not_or] at hne
    rw [List.flatten_cons, List.pairwise_append] at hsorted
    obtain ⟨hsamea, hsame⟩ := List.forall_mem_cons.1 hsame
    refine .cons (fun b hb i hi j hj => ?_) (ih hne.2 hsorted.2.1 hsame hends.tail)
    -- The next part begins with such a place.
    cases parts with
    | nil => simp at hb
    | cons b₀ parts =>
      obtain ⟨⟨ha, hb₀, hlevel⟩, -⟩ := List.isChain_cons_cons.1 hends
      have hflatten : (b₀ :: parts).flatten = b₀.head hb₀ :: (b₀.tail ++ parts.flatten) := by
        rw [List.flatten_cons, ← List.cons_append, List.cons_head_tail]
      have hj : j ∈ (b₀ :: parts).flatten := List.mem_flatten.2 ⟨b, hb, hj⟩
      refine ⟨b₀.head hb₀, hsorted.2.2 i hi _ (hflatten ▸ List.mem_cons_self), ?_, fun h => ?_⟩
      · rw [hflatten, List.mem_cons] at hj
        rw [hflatten] at hsorted
        rcases hj with rfl | hj
        · exact le_rfl
        · exact (List.rel_of_pairwise_cons hsorted.2.1 hj).le
      · refine beq_eq_false_iff_ne.1 hlevel ?_
        rw [h, hsamea _ (List.getLast_mem ha) i hi]

namespace Run

theorem pairwise_parts (h : Run depth is) : (parts cs.get depth is).Pairwise fun a b =>
    ∀ i ∈ a, ∀ j ∈ b, i < j ∧ ¬ Shares cs (depth + 1) i j := by
  have hflatten := h.sorted
  rw [← flatten_parts cs.get depth is] at hflatten
  refine (exists_between (List.nil_notMem_splitBy _ is) hflatten
    (fun part hpart i hi j hj => level?_of_mem_parts hpart hi hj)
    (List.isChain_getLast_head_splitBy
      (fun i j => level? depth (cs.get i) == level? depth (cs.get j)) is)).imp
    fun hab i hi j hj => ?_
  obtain ⟨l, hil, hlj, hl⟩ := hab i hi j hj
  refine ⟨hil.trans_le hlj, fun hshares => hl ?_⟩
  obtain ⟨iv, hi, hl⟩ := hshares l (Set.mem_uIcc_of_le hil.le hlj) depth depth.lt_succ_self
  rw [hl, hi]

theorem isLeast_head (h : Run depth (j :: is)) (hi : i ∈ j :: is) :
    IsLeast {l | Shares cs depth i l} j := by
  refine ⟨(h.mem_iff i hi j).1 List.mem_cons_self, fun l hl => ?_⟩
  rcases List.mem_cons.1 ((h.mem_iff i hi l).2 hl) with rfl | hl
  · exact le_rfl
  · exact (List.rel_of_pairwise_cons h.sorted hl).le

theorem sorted_part (h : Run depth is) (hpart : part ∈ parts cs.get depth is) :
    part.Pairwise (· < ·) := by
  have hsorted := h.sorted
  rw [← flatten_parts cs.get depth is] at hsorted
  exact hsorted.sublist (List.sublist_flatten_of_mem hpart)

theorem apart (h : Run depth is) (hpart : part ∈ parts cs.get depth is)
    (hpart' : part' ∈ parts cs.get depth is) (hne : part ≠ part') :
    (∀ i ∈ part, ∀ j ∈ part', ¬ Shares cs (depth + 1) i j) ∧
      ((∀ i ∈ part, ∀ j ∈ part', i < j) ∨ ∀ i ∈ part, ∀ j ∈ part', j < i) := by
  let R (a b : List (Fin cs.length)) : Prop :=
    (∀ i ∈ a, ∀ j ∈ b, ¬ Shares cs (depth + 1) i j) ∧
      ((∀ i ∈ a, ∀ j ∈ b, i < j) ∨ ∀ i ∈ a, ∀ j ∈ b, j < i)
  have hsymm : Std.Symm R := ⟨fun a b hab => ⟨fun i hi j hj hij => hab.1 j hj i hi hij.symm,
    hab.2.symm.imp (fun h i hi j hj => h j hj i hi) fun h i hi j hj => h j hj i hi⟩⟩
  have hpairwise : (parts cs.get depth is).Pairwise R := h.pairwise_parts.imp fun hab =>
    ⟨fun i hi j hj => (hab i hi j hj).2, .inl fun i hi j hj => (hab i hi j hj).1⟩
  exact hpairwise.forall hpart hpart' hne

theorem enter (h : Run depth is) (hpart : part ∈ parts cs.get depth is) {iv : Interval}
    (hlevel : ∀ i ∈ part, level? depth (cs.get i) = some iv) : Run (depth + 1) part where
  sorted := h.sorted_part hpart
  mem_iff i hi j := by
    have his := mem_of_mem_parts hpart hi
    constructor
    · intro hj l hl
      have hshares := ((h.mem_iff i his j).1 (mem_of_mem_parts hpart hj)).of_mem hl
      -- What stands between two places of the part belongs to it.
      have hmem : l ∈ part := by
        obtain ⟨part', hpart', hl'⟩ :=
          exists_mem_parts cs.get depth ((h.mem_iff i his l).2 hshares)
        by_contra hne
        rw [Set.mem_uIcc] at hl
        rcases (h.apart hpart hpart' fun heq => hne (heq ▸ hl')).2 with hlt | hlt
        · have hil := hlt i hi l hl'
          have hjl := hlt j hj l hl'
          omega
        · have hil := hlt i hi l hl'
          have hjl := hlt j hj l hl'
          omega
      intro m hm
      rcases Nat.lt_succ_iff_lt_or_eq.1 hm with hm | rfl
      · exact hshares.agree m hm
      · exact ⟨iv, hlevel i hi, hlevel l hmem⟩
    · intro hshares
      obtain ⟨part', hpart', hj⟩ := exists_mem_parts cs.get depth
        ((h.mem_iff i his j).2 (hshares.mono depth.le_succ))
      by_contra hne
      exact (h.apart hpart hpart' fun heq => hne (heq ▸ hj)).1 i hi j hj hshares

end Run

end Runs

abbrev Visit (cs : List (Cluster α)) := Fin cs.length × List Int

/-- Whether two visits are in the same iteration of `k` loops that their clusters share. -/
def Together (k : Nat) (p q : Visit cs) : Prop :=
  Shares cs k p.1 q.1 ∧ p.2.take k = q.2.take k

inductive Next (k : Nat) (p q : Visit cs) : Prop
  | place : ¬ Shares cs (k + 1) p.1 q.1 → p.1 < q.1 → Next k p q
  | loop {f : Fin cs.length} {v w : Int} : Shares cs (k + 1) p.1 q.1 →
      IsLeast {j | Shares cs (k + 1) p.1 j} f → p.2[k]? = some v → q.2[k]? = some w →
      Ahead k (cs.get f) v w → Next k p q

def Before (p q : Visit cs) : Prop := ∃ k, Together k p q ∧ Next k p q

section Pairwise

variable {is part : List (Fin cs.length)}

theorem Run.together (h : Run depth is) {p q : Visit cs} (hp : p.1 ∈ is) (hq : q.1 ∈ is)
    (hpw : p.2.take depth = ws) (hqw : q.2.take depth = ws) : Together depth p q :=
  ⟨(h.mem_iff _ hp _).1 hq, hpw.trans hqw.symm⟩

theorem Run.le_size (h : Run depth is) {i : Fin cs.length} (hi : i ∈ is) :
    depth ≤ (cs.get i).space.box.size :=
  ((h.mem_iff i hi i).1 hi).agree.le_size

theorem of_take_succ (hlen : ws.length = depth) {us : List Int} {v : Int}
    (h : us.take (depth + 1) = ws ++ [v]) : us.take depth = ws ∧ us[depth]? = some v := by
  constructor
  · rw [← Nat.min_eq_left depth.le_succ, ← List.take_take, h, ← hlen, List.take_left]
  · rw [← List.getElem?_take_of_lt depth.lt_succ_self, h, ← hlen]
    simp

theorem pairwise_within (h : Run depth is) (hpart : part ∈ parts cs.get depth is)
    (hlen : ws.length = depth) {inner : List Int → List (Visit cs)}
    (hinner : Run (depth + 1) part → ∀ v, (inner (ws ++ [v])).Pairwise Before ∧
      ∀ q ∈ inner (ws ++ [v]), q.1 ∈ part ∧ q.2.take (depth + 1) = ws ++ [v]) :
    (within bounds cs.get depth part ws inner).Pairwise Before := by
  have htake : ws.take depth = ws := List.take_of_length_le hlen.le
  cases part with
  | nil => exact .nil
  | cons f part =>
    have hlevels : ∀ j ∈ f :: part, level? depth (cs.get j) = level? depth (cs.get f) :=
      fun j hj => level?_of_mem_parts hpart hj List.mem_cons_self
    cases hlevel : level? depth (cs.get f) with
    | none =>
      rw [hlevel] at hlevels
      rw [within_of_none hlevels, List.pairwise_map]
      refine (h.sorted_part hpart).imp_of_mem fun {i j} hi hj hij => ?_
      refine ⟨depth, h.together (mem_of_mem_parts hpart hi) (mem_of_mem_parts hpart hj) htake htake,
        .place (fun hshares => ?_) hij⟩
      obtain ⟨iv, hiv, -⟩ := hshares.agree depth depth.lt_succ_self
      exact Option.some_ne_none iv (hiv.symm.trans (hlevels i hi))
    | some iv =>
      rw [hlevel] at hlevels
      have hrun := h.enter hpart hlevels
      rw [within_of_some hlevel, List.pairwise_flatMap]
      refine ⟨fun v _ => (hinner hrun v).1, (pairwise_values hlevel _).imp fun hvw p hp q hq => ?_⟩
      obtain ⟨hpf, hpw⟩ := (hinner hrun _).2 p hp
      obtain ⟨hqf, hqw⟩ := (hinner hrun _).2 q hq
      obtain ⟨hpw, hpv⟩ := of_take_succ hlen hpw
      obtain ⟨hqw, hqv⟩ := of_take_succ hlen hqw
      exact ⟨depth, h.together (mem_of_mem_parts hpart hpf) (mem_of_mem_parts hpart hqf)
        hpw hqw, .loop ((hrun.mem_iff _ hpf _).1 hqf) (hrun.isLeast_head hpf) hpv hqv hvw⟩

theorem pairwise_itineraryFrom (h : Run depth is)
    (hsize : ∀ i ∈ is, (cs.get i).space.box.size < depth + n) (hlen : ws.length = depth) :
    (itineraryFrom bounds cs.get n depth is ws).Pairwise Before := by
  induction n generalizing depth is ws with
  | zero => exact .nil
  | succ n ih =>
    have hsize' : ∀ part ∈ parts cs.get depth is, ∀ i ∈ part,
        (cs.get i).space.box.size < depth + 1 + n := fun part hpart i hi => by
      have := hsize i (mem_of_mem_parts hpart hi)
      omega
    have hmem : ∀ part ∈ parts cs.get depth is, ∀ q ∈ within bounds cs.get depth part ws
        (itineraryFrom bounds cs.get n (depth + 1) part), q.1 ∈ part ∧ q.2.take depth = ws := by
      rintro part hpart ⟨i, us⟩ hq
      rw [mem_within hpart fun hdepth v =>
        mem_itineraryFrom (hsize' part hpart) hdepth] at hq
      obtain ⟨hi, vs, rfl, -⟩ := hq
      exact ⟨hi, hlen ▸ List.take_left⟩
    rw [itineraryFrom, List.pairwise_flatMap]
    refine ⟨fun part hpart => pairwise_within h hpart hlen fun hrun v => ⟨?_, ?_⟩,
      h.pairwise_parts.imp_of_mem fun ha hb hab p hp q hq => ?_⟩
    · exact ih hrun (hsize' part hpart) (by simp [hlen])
    · rintro ⟨i, us⟩ hq
      obtain ⟨hi, vs, rfl, -⟩ :=
        (mem_itineraryFrom (hsize' part hpart) fun i hi => hrun.le_size hi).1 hq
      exact ⟨hi, List.take_left' (by simp [hlen])⟩
    · obtain ⟨hpa, hpw⟩ := hmem _ ha p hp
      obtain ⟨hqb, hqw⟩ := hmem _ hb q hq
      obtain ⟨hlt, hshares⟩ := hab _ hpa _ hqb
      exact ⟨depth, h.together (mem_of_mem_parts ha hpa) (mem_of_mem_parts hb hqb) hpw hqw,
        .place hshares hlt⟩

end Pairwise

theorem pairwise_itinerary (bounds : Dimension → Option (Int × Int)) (cs : List (Cluster α)) :
    (itinerary bounds cs).Pairwise Before :=
  pairwise_itineraryFrom run_finRange
    (fun i _ => (Nat.zero_add (levels cs)).symm ▸ size_lt_levels (cs.get_mem i)) rfl

section Order

variable {p q r : Visit cs}

theorem Together.symm (h : Together k p q) : Together k q p := ⟨h.1.symm, h.2.symm⟩

theorem Together.trans (h : Together k p q) (h' : Together k q r) : Together k p r :=
  ⟨h.1.trans h'.1, h.2.trans h'.2⟩

theorem Together.mono (h : Together k p q) (hk : k' ≤ k) : Together k' p q :=
  ⟨h.1.mono hk, by rw [← Nat.min_eq_left hk, ← List.take_take, h.2, List.take_take]⟩

theorem getElem?_eq {us vs : List Int} (h : us.take (k + 1) = vs.take (k + 1)) :
    us[k]? = vs[k]? := by
  rw [← List.getElem?_take_of_lt k.lt_succ_self, h, List.getElem?_take_of_lt k.lt_succ_self]

theorem Next.not_together (h : Next k p q) : ¬ Together (k + 1) p q := by
  rintro ⟨hshares, htake⟩
  cases h with
  | place hnot _ => exact hnot hshares
  | loop _ _ hv hw hvw => exact hvw.ne (Option.some.inj (by rw [← hv, ← hw, getElem?_eq htake]))

theorem Next.asymm (h : Next k p q) : ¬ Next k q p := by
  intro h'
  cases h with
  | place hnot hlt =>
    cases h' with
    | place _ hlt' => exact absurd hlt' hlt.asymm
    | loop hshares => exact hnot hshares.symm
  | loop hshares hf hv hw hvw =>
    cases h' with
    | place hnot => exact hnot hshares.symm
    | loop _ hf' hw' hv' hwv =>
      have hset : {j | Shares cs (k + 1) q.1 j} = {j | Shares cs (k + 1) p.1 j} :=
        Set.ext fun j => ⟨hshares.trans, hshares.symm.trans⟩
      rw [hset] at hf'
      obtain rfl := hf.unique hf'
      rw [hv, Option.some.injEq] at hv'
      rw [hw, Option.some.injEq] at hw'
      exact hvw.asymm (hv' ▸ hw' ▸ hwv)

theorem Before.asymm (h : Before p q) : ¬ Before q p := by
  rintro ⟨k', htogether', hnext'⟩
  obtain ⟨k, htogether, hnext⟩ := h
  -- The level at which two visits part is the same from both sides.
  have hlt : ¬ k < k' := fun hlt => hnext.not_together (htogether'.symm.mono hlt)
  have hgt : ¬ k' < k := fun hgt => hnext'.not_together (htogether.symm.mono hgt)
  obtain rfl : k = k' := by omega
  exact hnext.asymm hnext'

theorem Before.together (hpr : Before p r) (hrq : Before r q) (h : Together k p q) :
    Together k p r := by
  obtain ⟨k₁, hpr, hnext₁⟩ := hpr
  obtain ⟨k₂, hrq, hnext₂⟩ := hrq
  by_cases h₁ : k ≤ k₁
  · exact hpr.mono h₁
  by_cases h₂ : k ≤ k₂
  · exact h.trans (hrq.mono h₂).symm
  -- Otherwise the visit parts from both at the same level, before the one and after the other.
  exfalso
  rcases lt_trichotomy k₁ k₂ with hlt | rfl | hgt
  · exact hnext₁.not_together ((h.mono (by omega)).trans (hrq.mono hlt).symm)
  · obtain ⟨hshares, htake⟩ := h.mono (show k₁ + 1 ≤ k by omega)
    cases hnext₁ with
    | place hnot hlt =>
      cases hnext₂ with
      | place _ hlt' => exact hnot (hshares.of_mem (Set.mem_uIcc_of_le hlt.le hlt'.le))
      | loop hshares' => exact hnot (hshares.trans hshares'.symm)
    | loop hshares₁ hf hv hw hvw =>
      cases hnext₂ with
      | place hnot => exact hnot (hshares₁.symm.trans hshares)
      | loop _ hf' hw' hv' hwv =>
        have hback : Next k₁ r p := .loop hshares₁.symm hf' hw' (by rw [getElem?_eq htake, hv']) hwv
        exact hback.asymm (.loop hshares₁ hf hv hw hvw)
  · exact hnext₂.not_together ((hpr.mono hgt).symm.trans (h.mono (by omega)))

theorem nodup_itinerary (bounds : Dimension → Option (Int × Int)) (cs : List (Cluster α)) :
    (itinerary bounds cs).Nodup :=
  (pairwise_itinerary bounds cs).imp fun {p q} (h : Before p q) (heq : p = q) =>
    h.asymm (heq ▸ h)

theorem pair_sublist {β : Type} {a b : β} {l : List β} (ha : a ∈ l) (hb : b ∈ l) (hne : a ≠ b) :
    [a, b].Sublist l ∨ [b, a].Sublist l := by
  obtain ⟨s, t, rfl⟩ := List.append_of_mem ha
  rcases List.mem_append.1 hb with hb | hb
  · exact .inr ((List.singleton_sublist.2 hb).append (List.singleton_sublist.2 List.mem_cons_self))
  · have hb := (List.mem_cons.1 hb).resolve_left hne.symm
    exact .inl (((List.singleton_sublist.2 hb).cons_cons a).trans (List.sublist_append_right s _))

theorem before_iff (hp : p ∈ itinerary bounds cs) (hq : q ∈ itinerary bounds cs) :
    Before p q ↔ [p, q].Sublist (itinerary bounds cs) := by
  have hbefore : ∀ {p q : Visit cs}, [p, q].Sublist (itinerary bounds cs) → Before p q :=
    fun h => List.rel_of_pairwise_cons ((pairwise_itinerary bounds cs).sublist h) (by simp)
  refine ⟨fun h => ?_, hbefore⟩
  have hne : p ≠ q := fun heq => h.asymm (heq ▸ h)
  exact (pair_sublist hp hq hne).resolve_right fun h' => h.asymm (hbefore h')

end Order

end Stencil.Nest
