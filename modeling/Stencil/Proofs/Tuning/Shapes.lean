import Mathlib.Data.List.Induction
import Mathlib.Data.List.Nodup
import Mathlib.Logic.Function.Iterate
import Stencil.Proofs.Tuning.Candidates

namespace Stencil

section FirstPlaces

variable {β : Type} [BEq β] [LawfulBEq β] {l m : List β} {a b c : β}

theorem eraseDups_append_of_mem (h : b ∈ l) : (l ++ [b]).eraseDups = l.eraseDups := by
  simp [List.eraseDups_append, List.removeAll, h]

theorem eraseDups_append_of_not_mem (h : b ∉ l) (r : List β) :
    ∃ s, (l ++ b :: r).eraseDups = l.eraseDups ++ b :: s := by
  simp [List.eraseDups_append, List.removeAll, h, List.eraseDups_cons]

theorem eraseDups_snoc_of_not_mem (h : b ∉ l) : (l ++ [b]).eraseDups = l.eraseDups ++ [b] := by
  simp [List.eraseDups_append, List.removeAll, h, List.eraseDups_cons]

theorem nodup_eraseDups (l : List β) : l.eraseDups.Nodup := by
  induction l using List.reverseRecOn with
  | nil => exact List.nodup_nil
  | append_singleton l b ih =>
    by_cases h : b ∈ l
    · rwa [eraseDups_append_of_mem h]
    · rw [eraseDups_snoc_of_not_mem h, List.nodup_append]
      refine ⟨ih, List.nodup_singleton b, fun x hx y hy hxy => ?_⟩
      rw [List.mem_singleton.1 hy] at hxy
      exact h (hxy ▸ List.mem_eraseDups.1 hx)

def Ahead (l : List β) (a b : β) : Prop := a ∈ l.takeWhile (· != b)

omit [LawfulBEq β] in
@[simp] theorem not_ahead_nil : ¬ Ahead [] a b := List.not_mem_nil

@[simp] theorem ahead_cons : Ahead (c :: l) a b ↔ c ≠ b ∧ (a = c ∨ Ahead l a b) := by
  by_cases h : c = b <;> simp [Ahead, h]

omit [LawfulBEq β] in
theorem Ahead.mem (h : Ahead l a b) : a ∈ l := (List.takeWhile_sublist _).subset h

theorem ahead_append (h : b ∈ l) {r : List β} : Ahead (l ++ r) a b ↔ Ahead l a b := by
  induction l with
  | nil => simp at h
  | cons c l ih => grind [ahead_cons]

theorem Ahead.append (h : Ahead l a b) (r : List β) : Ahead (l ++ r) a b := by
  induction l with
  | nil => simp at h
  | cons c l ih => grind [ahead_cons]

theorem ahead_append_cons (h : b ∉ l) {r : List β} : Ahead (l ++ b :: r) a b ↔ a ∈ l := by
  induction l with
  | nil => simp
  | cons c l ih => grind [ahead_cons]

theorem ahead_map {γ : Type} [BEq γ] [LawfulBEq γ] {f : β → γ} (hf : Function.Injective f) :
    Ahead (l.map f) (f a) (f b) ↔ Ahead l a b := by
  induction l with
  | nil => simp
  | cons c l ih => simp [ih, hf.eq_iff]

theorem eraseDups_filter_sublist {p : β → Bool} (hmem : ∀ b ∈ l, p b → b ∈ m)
    (hahead : ∀ b ∈ l, p b → ∀ a, p a → Ahead l a b → Ahead m a b) :
    (l.filter p).eraseDups.Sublist (m.filter p).eraseDups := by
  induction l using List.reverseRecOn generalizing m with
  | nil => exact List.nil_sublist _
  | append_singleton l b ih =>
    rw [List.filter_append]
    by_cases hp : p b
    · rw [List.filter_cons_of_pos hp, List.filter_nil]
      by_cases hb : b ∈ l
      · rw [eraseDups_append_of_mem (List.mem_filter.2 ⟨hb, hp⟩)]
        exact ih (fun a ha => hmem a (List.mem_append_left _ ha))
          fun c hc hpc a ha h => hahead c (List.mem_append_left _ hc) hpc a ha (h.append [b])
      · -- The part of `m` up to the first `b` holds all of `l`, and `b` is new there.
        have hlast : b ∈ l ++ [b] := List.mem_append_right l (List.mem_singleton_self b)
        obtain ⟨x, y, rfl, hx⟩ := List.eq_append_cons_of_mem (hmem b hlast hp)
        have hin : ∀ a ∈ l, p a → a ∈ x := fun a ha hpa =>
          (ahead_append_cons hx).1 (hahead b hlast hp a hpa ((ahead_append_cons hb).2 ha))
        have hsub := ih (m := x) hin fun c hc hpc a ha h =>
          (ahead_append (hin c hc hpc)).1
            (hahead c (List.mem_append_left _ hc) hpc a ha (h.append [b]))
        obtain ⟨s, hs⟩ := eraseDups_append_of_not_mem (l := x.filter p)
          (fun h => hx (List.mem_filter.1 h).1) (y.filter p)
        rw [List.filter_append, List.filter_cons_of_pos hp, hs,
          eraseDups_snoc_of_not_mem fun h => hb (List.mem_filter.1 h).1]
        exact hsub.append (List.singleton_sublist.2 List.mem_cons_self)
    · rw [List.filter_cons_of_neg hp, List.filter_nil, List.append_nil]
      exact ih (fun a ha => hmem a (List.mem_append_left _ ha))
        fun c hc hpc a ha h => hahead c (List.mem_append_left _ hc) hpc a ha (h.append [b])

end FirstPlaces

namespace Candidates

section Insertion

variable {β : Type} [BEq β] [LawfulBEq β] {l : List β} {a b : β}

omit [LawfulBEq β] in
theorem mem_insertAfter_self (a b : β) (l : List β) : b ∈ insertAfter a b l := by
  induction l with
  | nil => exact List.mem_singleton_self b
  | cons c l ih =>
    rw [insertAfter]
    split
    · exact List.mem_cons_of_mem c List.mem_cons_self
    · exact List.mem_cons_of_mem c ih

omit [LawfulBEq β] in
theorem subset_insertAfter (a b : β) (l : List β) : l ⊆ insertAfter a b l := by
  induction l with
  | nil => exact List.nil_subset _
  | cons c l ih =>
    rw [insertAfter]
    split
    · exact List.cons_subset_cons c (List.subset_cons_self b l)
    · exact List.cons_subset_cons c ih

theorem insertAfter_append (h : a ∈ l) (r : List β) :
    insertAfter a b (l ++ r) = insertAfter a b l ++ r := by
  induction l with
  | nil => simp at h
  | cons c l ih => grind [insertAfter]

theorem insertAfter_map {γ : Type} [BEq γ] [LawfulBEq γ] {f : β → γ} (hf : Function.Injective f) :
    insertAfter (f a) (f b) (l.map f) = (insertAfter a b l).map f := by
  induction l with
  | nil => rfl
  | cons c l ih =>
    by_cases h : c = a
    · simp [insertAfter, h]
    · simp [insertAfter, h, hf.eq_iff, ih]

theorem ahead_insertAfter {s t : β} (h : Ahead l s t) (hb : t = b → s = a ∨ Ahead l s a) :
    Ahead (insertAfter a b l) s t := by
  induction l with
  | nil => simp at h
  | cons c l ih =>
    rw [Candidates.insertAfter]
    grind [ahead_cons]

end Insertion

theorem double_mono {a b : Int} (h : a ≤ b) : double a ≤ double b := by
  simp only [double, saturate]
  omega

theorem double_le_maxInt64 (a : Int) : double a ≤ maxInt64 := by
  simp only [double, saturate, maxInt64, minInt64]
  omega

theorem double_saturate (a : Int) : double (saturate a) = saturate (2 * a) := by
  simp only [double, saturate, maxInt64, minInt64]
  omega

def rampSizes : Nat → Int → List Int → List Int
  | 0, _, sizes => sizes
  | n + 1, a, sizes => rampSizes n (double a) (insertAfter a (double a) sizes)

structure Ramping (sizes : List Int) (a : Int) (l : List Int) : Prop where
  mem : a ∈ l
  heads : ((∀ s ∈ sizes, s ≤ a) ∧ a ≤ double a) ∨ double a ≤ a
  ahead : ∀ s ∈ sizes, ∀ t, s < t → Ahead l s t

theorem Ramping.next {sizes l : List Int} {a : Int} (h : Ramping sizes a l) :
    Ramping sizes (double a) (insertAfter a (double a) l) where
  mem := mem_insertAfter_self _ _ _
  heads := by
    rcases h.heads with ⟨hle, hup⟩ | hdown
    · exact .inl ⟨fun s hs => Int.le_trans (hle s hs) hup, double_mono hup⟩
    · exact .inr (double_mono hdown)
  ahead s hs t hst := by
    refine ahead_insertAfter (h.ahead s hs t hst) fun ht => ?_
    have hle : s ≤ a := by
      rcases h.heads with ⟨hle, -⟩ | hdown
      · exact hle s hs
      · omega
    rcases Int.lt_or_eq_of_le hle with hlt | rfl
    · exact .inr (h.ahead s hs a hlt)
    · exact .inl rfl

theorem ahead_rampSizes (n : Nat) {sizes l : List Int} {a : Int} (h : Ramping sizes a l) :
    ∀ s ∈ sizes, ∀ t, s < t → Ahead (rampSizes n a l) s t := by
  induction n generalizing a l with
  | zero => exact h.ahead
  | succ n ih => exact ih h.next

theorem subset_rampSizes (n : Nat) (a : Int) (l : List Int) : l ⊆ rampSizes n a l := by
  induction n generalizing a l with
  | zero => exact List.Subset.refl l
  | succ n ih => exact List.Subset.trans (subset_insertAfter _ _ _) (ih _ _)

theorem iterate_mem_rampSizes {k n : Nat} (a : Int) (l : List Int) (hk : k < n) :
    Nat.iterate double (k + 1) a ∈ rampSizes n a l := by
  induction n generalizing k a l with
  | zero => omega
  | succ n ih =>
    rw [rampSizes]
    cases k with
    | zero => exact subset_rampSizes _ _ _ (mem_insertAfter_self _ _ _)
    | succ k => exact ih (double a) _ (by omega)

theorem ahead_of_lt {sizes : List Int} {s t : Int} (hsorted : sizes.Pairwise (· ≤ ·))
    (hs : s ∈ sizes) (h : s < t) : Ahead sizes s t := by
  induction sizes with
  | nil => simp at hs
  | cons c l ih =>
    obtain ⟨hc, hl⟩ := List.pairwise_cons.1 hsorted
    rw [ahead_cons]
    rcases List.mem_cons.1 hs with rfl | hs
    · exact ⟨by omega, .inl rfl⟩
    · have hle := hc s hs
      exact ⟨by omega, .inr (ih hl hs)⟩

theorem lt_of_ahead {sizes : List Int} {s t : Int} (hsorted : sizes.Pairwise (· ≤ ·))
    (ht : t ∈ sizes) (h : Ahead sizes s t) : s < t := by
  induction sizes with
  | nil => simp at ht
  | cons c l ih =>
    obtain ⟨hc, hl⟩ := List.pairwise_cons.1 hsorted
    obtain ⟨hne, h⟩ := ahead_cons.1 h
    have htl : t ∈ l := (List.mem_cons.1 ht).resolve_left (Ne.symm hne)
    rcases h with rfl | h
    · have hle := hc t htl
      omega
    · exact ih hl htl h

theorem ramping_start {sizes : List Int} {a : Int} (hsorted : sizes.Pairwise (· ≤ ·))
    (ha : a ∈ sizes) (hmax : ∀ s ∈ sizes, s ≤ a) : Ramping sizes a sizes where
  mem := ha
  heads := (Int.le_total a (double a)).imp (fun h => ⟨hmax, h⟩) id
  ahead _ hs _ hst := ahead_of_lt hsorted hs hst

variable {whole b : Binding} {sizes : List Int}

theorem doubleAll_cube (whole : Binding) (a : Int) :
    doubleAll (cube whole a) = cube whole (double a) := by
  simp [doubleAll, cube]

theorem cube_injective (hw : whole ≠ []) : Function.Injective (cube whole) := by
  intro s t h
  cases whole with
  | nil => exact absurd rfl hw
  | cons x w => simpa [cube] using (List.cons.inj h).1

theorem ramp_map_cube (hw : whole ≠ []) (n : Nat) {a : Int} {l : List Int} (ha : a ∈ l)
    (r : List Binding) : ramp n (cube whole a) (l.map (cube whole) ++ r) =
      (rampSizes n a l).map (cube whole) ++ r := by
  induction n generalizing a l with
  | zero => rfl
  | succ n ih =>
    rw [ramp, rampSizes, doubleAll_cube, insertAfter_append (List.mem_map_of_mem ha),
      insertAfter_map (cube_injective hw), ih (mem_insertAfter_self _ _ _)]

def rampedSizes (sizes : List Int) : List Int :=
  match sizes.getLast? with
  | some largest => rampSizes 3 largest sizes
  | none => sizes

theorem aggressiveShapes_eq (hw : whole ≠ []) (sizes : List Int) :
    aggressiveShapes whole sizes =
      basicShapes whole (rampedSizes sizes) ++ mixed (basicShapes whole (rampedSizes sizes)) ++
        doubled whole.length (basicShapes whole (rampedSizes sizes)) := by
  unfold aggressiveShapes rampedSizes
  cases h : sizes.getLast? with
  | none => rfl
  | some largest =>
    have hmem : largest ∈ sizes := List.mem_of_getLast? h
    simp only [basicShapes, ramp_map_cube hw 3 hmem]

theorem subset_rampedSizes (sizes : List Int) : sizes ⊆ rampedSizes sizes := by
  unfold rampedSizes
  split
  · exact subset_rampSizes _ _ _
  · exact List.Subset.refl sizes

theorem le_of_mem_getLast? {a : Int} (hsorted : sizes.Pairwise (· ≤ ·))
    (h : sizes.getLast? = some a) : ∀ s ∈ sizes, s ≤ a := by
  obtain ⟨ys, rfl⟩ := List.getLast?_eq_some_iff.1 h
  intro s hs
  rcases List.mem_append.1 hs with hs | hs
  · exact (List.pairwise_append.1 hsorted).2.2 s hs a (List.mem_singleton_self a)
  · exact Int.le_of_eq (List.mem_singleton.1 hs)

theorem ahead_rampedSizes (hsorted : sizes.Pairwise (· ≤ ·)) {s t : Int} (hs : s ∈ sizes)
    (hst : s < t) : Ahead (rampedSizes sizes) s t := by
  unfold rampedSizes
  cases h : sizes.getLast? with
  | none => exact ahead_of_lt hsorted hs hst
  | some largest =>
    exact ahead_rampSizes 3 (ramping_start hsorted (List.mem_of_getLast? h)
      (le_of_mem_getLast? hsorted h)) s hs t hst

theorem fits_cube_cube (hw : whole ≠ []) {s t : Int} (h : fits (cube whole t) (cube whole s)) :
    s ≤ t := by
  cases whole with
  | nil => exact absurd rfl hw
  | cons x w => simp_all [fits, cube]

theorem fits_iff : fits whole b = true ↔
    ∀ (i : Nat) (x y : String × Int), b[i]? = some x → whole[i]? = some y → x.2 ≤ y.2 := by
  simp only [fits, List.all_eq_true, decide_eq_true_eq]
  constructor
  · intro h i x y hx hy
    exact h (x, y) (List.mem_of_getElem? (List.getElem?_zip_eq_some.2 ⟨hx, hy⟩))
  · intro h z hz
    obtain ⟨i, hi⟩ := List.mem_iff_getElem?.1 hz
    obtain ⟨hx, hy⟩ := List.getElem?_zip_eq_some.1 hi
    exact h i _ _ hx hy

theorem fits_self (whole : Binding) : fits whole whole = true :=
  fits_iff.2 fun i x y hx hy => by
    obtain rfl := Option.some.inj (hx.symm.trans hy)
    exact Int.le_refl _

theorem ahead_basicShapes (hw : whole ≠ []) (hsorted : sizes.Pairwise (· ≤ ·)) {b c : Binding}
    (hb : b ∈ basicShapes whole sizes) (hfit : fits whole c)
    (h : Ahead (basicShapes whole sizes) c b) :
    Ahead (basicShapes whole (rampedSizes sizes)) c b := by
  have hinj := cube_injective hw
  have hcubes {s t : Int} (hs : s ∈ sizes) (hst : s < t) :
      Ahead (basicShapes whole (rampedSizes sizes)) (cube whole s) (cube whole t) :=
    ((ahead_map hinj).2 (ahead_rampedSizes hsorted hs hst)).append _
  by_cases hbs : b ∈ sizes.map (cube whole)
  · have hahead := (ahead_append hbs).1 h
    obtain ⟨s, hs, rfl⟩ := List.mem_map.1 hahead.mem
    obtain ⟨t, ht, rfl⟩ := List.mem_map.1 hbs
    exact hcubes hs (lt_of_ahead hsorted ht ((ahead_map hinj).1 hahead))
  · obtain rfl : b = whole := by simpa [basicShapes, hbs] using hb
    obtain ⟨s, hs, rfl⟩ := List.mem_map.1 ((ahead_append_cons hbs).1 h)
    by_cases hbr : b ∈ (rampedSizes sizes).map (cube b)
    · -- The whole domain is one of the cubes, and all sizes that fit are below its size.
      obtain ⟨t, -, ht⟩ := List.mem_map.1 hbr
      have hfit' : fits (cube b t) (cube b s) = true := ht.symm ▸ hfit
      have hle : s ≤ t := fits_cube_cube hw hfit'
      have hne : s ≠ t := by
        rintro rfl
        exact hbs (List.mem_map.2 ⟨s, hs, ht⟩)
      have hahead := hcubes hs (show s < t by omega)
      rwa [ht] at hahead
    · exact (ahead_append_cons hbr).2 (List.mem_map_of_mem (subset_rampedSizes sizes hs))

theorem subset_basicShapes (sizes : List Int) :
    basicShapes whole sizes ⊆ basicShapes whole (rampedSizes sizes) := by
  intro b hb
  rcases List.mem_append.1 hb with hb | hb
  · exact List.mem_append_left _ (List.map_subset _ (subset_rampedSizes sizes) hb)
  · exact List.mem_append_right _ hb

theorem eraseDups_basicShapes_sublist (hw : whole ≠ []) (hsorted : sizes.Pairwise (· ≤ ·)) :
    ((basicShapes whole sizes).filter (fits whole)).eraseDups.Sublist
      ((aggressiveShapes whole sizes).filter (fits whole)).eraseDups := by
  have hramped : ((basicShapes whole sizes).filter (fits whole)).eraseDups.Sublist
      ((basicShapes whole (rampedSizes sizes)).filter (fits whole)).eraseDups := by
    refine eraseDups_filter_sublist (fun b hb _ => subset_basicShapes sizes hb)
      fun b hb _ c hc h => ahead_basicShapes hw hsorted hb hc h
  rw [aggressiveShapes_eq hw, List.append_assoc, List.filter_append, List.eraseDups_append]
  exact hramped.trans (List.sublist_append_left _ _)

theorem mem_choose {β : Type} {k : Nat} {l c : List β} (h : c.Sublist l) (hc : c.length = k) :
    c ∈ choose k l := by
  induction h generalizing k with
  | slnil =>
    obtain rfl : 0 = k := hc
    exact List.mem_singleton_self []
  | @cons c l a _ ih =>
    cases k with
    | zero =>
      rw [List.length_eq_zero_iff.1 hc]
      exact List.mem_singleton_self []
    | succ k => exact List.mem_append_right _ (ih hc)
  | @cons_cons c l a _ ih =>
    obtain rfl : c.length + 1 = k := hc
    exact List.mem_append_left _ (List.mem_map_of_mem (ih rfl))

theorem mem_subsets {n : Nat} {at_ : List Nat} (h : at_.Sublist (List.range n)) (hne : at_ ≠ []) :
    at_ ∈ subsets n := by
  have hpos := List.length_pos_iff.2 hne
  have hlen := h.length_le
  rw [List.length_range] at hlen
  exact List.mem_flatMap.2 ⟨at_.length - 1, List.mem_range.2 (by omega), mem_choose h (by omega)⟩

theorem getElem?_doubleAt (at_ : List Nat) (b : Binding) (i : Nat) : (doubleAt at_ b)[i]? =
    b[i]?.map fun x => (x.1, if i ∈ at_ then double x.2 else x.2) := by
  simp [doubleAt, List.getElem?_map, List.getElem?_zipIdx, Function.comp_def]

theorem doubleAt_congr {at_ at' : List Nat} {b : Binding} (h : ∀ i < b.length, i ∈ at_ ↔ i ∈ at') :
    doubleAt at_ b = doubleAt at' b := by
  refine List.ext_getElem? fun i => ?_
  rw [getElem?_doubleAt, getElem?_doubleAt]
  by_cases hi : i < b.length
  · simp only [h i hi]
  · simp [List.getElem?_eq_none (Nat.le_of_not_lt hi)]

theorem mem_doubled {shapes : List Binding} (hb : b ∈ shapes) {at_ : List Nat} (hne : at_ ≠ [])
    (hlt : ∀ i ∈ at_, i < b.length) : doubleAt at_ b ∈ doubled b.length shapes := by
  have hsame : doubleAt at_ b = doubleAt ((List.range b.length).filter (· ∈ at_)) b :=
    doubleAt_congr fun i hi => by simp [hi]
  obtain ⟨i, hi⟩ := List.exists_mem_of_ne_nil at_ hne
  have hmem : i ∈ (List.range b.length).filter (· ∈ at_) := by simp [hi, hlt i hi]
  rw [hsame]
  exact List.mem_flatMap.2 ⟨b, hb, List.mem_map_of_mem
    (mem_subsets List.filter_sublist (List.ne_nil_of_mem hmem))⟩

def steps (blocks : List KernelDimension) : List (String × Dimension) :=
  blocks.filterMap fun b => b.block?.map (·.2)

structure Within (blocks : List KernelDimension) (args : Arguments) (b : Binding) : Prop where
  names : names b = (steps blocks).map (·.1)
  bounded : ∀ (i : Nat) (k : String × Dimension) (x : String × Int), (steps blocks)[i]? = some k →
    b[i]? = some x → ∀ n, extent? args k.2 = some n → x.2 ≤ n

variable {blocks : List KernelDimension} {args : Arguments} {level : Level} {o : Options}

theorem domain_eq (blocks : List KernelDimension) (args : Arguments) :
    domain blocks args = (steps blocks).map fun k => (k.1, (extent? args k.2).getD maxInt64) := by
  simp [domain, steps, List.map_filterMap, Function.comp_def]

theorem Within.fits (h : Within blocks args b) (hmax : ∀ (i : Nat) (k : String × Dimension)
    (x : String × Int), (steps blocks)[i]? = some k → b[i]? = some x → extent? args k.2 = none →
      x.2 ≤ maxInt64) : fits (domain blocks args) b = true := by
  refine fits_iff.2 fun i x y hx hy => ?_
  rw [domain_eq, List.getElem?_map, Option.map_eq_some_iff] at hy
  obtain ⟨k, hk, rfl⟩ := hy
  cases he : extent? args k.2 with
  | none => simpa [he] using hmax i k x hk hx he
  | some n => simpa [he] using h.bounded i k x hk hx n he

theorem within_of_fits (hn : Candidates.names b = (steps blocks).map (·.1))
    (h : fits (domain blocks args) b = true) : Within blocks args b where
  names := hn
  bounded i k x hk hx n he := by
    have hy : (domain blocks args)[i]? = some (k.1, n) := by
      simp [domain_eq, List.getElem?_map, hk, he]
    exact fits_iff.1 h i x _ hx hy

def shapes (whole : Binding) (sizes : List Int) : Level → List Binding
  | .basic => basicShapes whole sizes
  | .aggressive => aggressiveShapes whole sizes

theorem blockShapes_eq (hw : domain blocks args ≠ []) (level : Level) (o : Options) :
    blockShapes blocks args level o =
      ((shapes (domain blocks args) o.blockSizes.mergeSort level).filter
        (fits (domain blocks args))).eraseDups := by
  have hne : (domain blocks args).isEmpty = false := List.isEmpty_eq_false_iff.2 hw
  cases level <;> simp [blockShapes, hne, shapes]

theorem mem_blockShapes (hw : domain blocks args ≠ []) : b ∈ blockShapes blocks args level o ↔
    b ∈ shapes (domain blocks args) o.blockSizes.mergeSort level ∧
      fits (domain blocks args) b = true := by
  rw [blockShapes_eq hw, List.mem_eraseDups, List.mem_filter]

theorem pairwise_mergeSort_le (sizes : List Int) : sizes.mergeSort.Pairwise (· ≤ ·) :=
  (List.pairwise_mergeSort (fun a b c hab hbc => by simp_all; omega)
    (fun a b => by simp; omega) sizes).imp (by simp)

theorem within_of_mem_blockShapes (h : b ∈ blockShapes blocks args level o) :
    Within blocks args b := by
  have hnames := names_blockShapes b h
  have hsteps : Candidates.names b = (steps blocks).map (·.1) := by
    rw [hnames, steps, List.map_filterMap]
    simp [Function.comp_def]
  have hw : domain blocks args ≠ [] := by
    intro hw
    simp [blockShapes, hw] at h
  exact within_of_fits hsteps ((mem_blockShapes hw).1 h).2

theorem whole_mem_basicShapes (whole : Binding) (sizes : List Int) :
    whole ∈ basicShapes whole sizes :=
  List.mem_append_right _ (List.mem_singleton_self whole)

theorem basicShapes_subset_shapes (hw : whole ≠ []) (sizes : List Int) (level : Level) :
    basicShapes whole sizes ⊆ shapes whole sizes level := by
  cases level with
  | basic => exact List.Subset.refl _
  | aggressive =>
    rw [shapes, aggressiveShapes_eq hw, List.append_assoc]
    exact List.subset_append_of_subset_left _ (subset_basicShapes sizes)

theorem whole_mem_blockShapes (hw : domain blocks args ≠ []) (level : Level) (o : Options) :
    domain blocks args ∈ blockShapes blocks args level o :=
  (mem_blockShapes hw).2 ⟨basicShapes_subset_shapes hw _ level (whole_mem_basicShapes _ _),
    fits_self _⟩

theorem blockShapes_sublist (hw : domain blocks args ≠ []) (o : Options) :
    (blockShapes blocks args .basic o).Sublist (blockShapes blocks args .aggressive o) := by
  rw [blockShapes_eq hw, blockShapes_eq hw]
  exact eraseDups_basicShapes_sublist hw (pairwise_mergeSort_le o.blockSizes)

theorem doubleAt_mem_blockShapes (hb : b ∈ blockShapes blocks args .basic o) {at_ : List Nat}
    (hne : at_ ≠ []) (hlt : ∀ i ∈ at_, i < b.length) (hin : Within blocks args (doubleAt at_ b)) :
    doubleAt at_ b ∈ blockShapes blocks args .aggressive o := by
  have hw : domain blocks args ≠ [] := by
    intro hw
    simp [blockShapes, hw] at hb
  obtain ⟨hbasic, hfit⟩ := (mem_blockShapes hw).1 hb
  have hlen : b.length = (domain blocks args).length := by
    have hnames := congrArg List.length (within_of_mem_blockShapes hb).names
    simpa [Candidates.names, domain_eq] using hnames
  refine (mem_blockShapes hw).2 ⟨?_, hin.fits fun i k x hk hx he => ?_⟩
  · rw [shapes, aggressiveShapes_eq hw, ← hlen]
    exact List.mem_append_right _ (mem_doubled (subset_basicShapes _ hbasic) hne hlt)
  · rw [getElem?_doubleAt, Option.map_eq_some_iff] at hx
    obtain ⟨y, hy, rfl⟩ := hx
    have hwhole : (domain blocks args)[i]? = some (k.1, maxInt64) := by
      simp [domain_eq, List.getElem?_map, hk, he]
    dsimp only
    split
    · exact double_le_maxInt64 y.2
    · exact fits_iff.1 hfit i y _ hy hwhole

theorem cube_mem_blockShapes (hw : domain blocks args ≠ []) {a : Int}
    (ha : a ∈ rampedSizes o.blockSizes.mergeSort) (hle : a ≤ maxInt64)
    (hin : Within blocks args (cube (domain blocks args) a)) :
    cube (domain blocks args) a ∈ blockShapes blocks args .aggressive o := by
  refine (mem_blockShapes hw).2 ⟨?_, hin.fits fun i k x _ hx _ => ?_⟩
  · rw [shapes, aggressiveShapes_eq hw, List.append_assoc]
    exact List.mem_append_left _ (List.mem_append_left _ (List.mem_map_of_mem ha))
  · obtain ⟨y, -, rfl⟩ := List.mem_map.1 (List.mem_of_getElem? hx)
    exact hle

theorem getLast?_mergeSort {n : Int} (hn : n ∈ sizes) (hmax : ∀ m ∈ sizes, m ≤ n) :
    sizes.mergeSort.getLast? = some n := by
  have hmem : n ∈ sizes.mergeSort := List.mem_mergeSort.2 hn
  cases h : sizes.mergeSort.getLast? with
  | none =>
    rw [List.getLast?_eq_none_iff.1 h] at hmem
    contradiction
  | some a =>
    have ha : a ∈ sizes := List.mem_mergeSort.1 (List.mem_of_getLast? h)
    have hle := le_of_mem_getLast? (pairwise_mergeSort_le sizes) h n hmem
    rw [Int.le_antisymm (hmax a ha) hle]

theorem saturate_mem_rampedSizes {n : Int} (hn : n ∈ sizes) (hmax : ∀ m ∈ sizes, m ≤ n) :
    ∀ c ∈ [2, 4, 8], saturate (c * n) ∈ rampedSizes sizes.mergeSort := by
  have hmem (k : Nat) (hk : k < 3) :
      Nat.iterate double (k + 1) n ∈ rampedSizes sizes.mergeSort := by
    rw [rampedSizes, getLast?_mergeSort hn hmax]
    exact iterate_mem_rampSizes n _ hk
  have hquad : double (double n) = saturate (4 * n) := by
    rw [show double n = saturate (2 * n) from rfl, double_saturate, ← Int.mul_assoc]
    rfl
  have hoct : double (saturate (4 * n)) = saturate (8 * n) := by
    rw [double_saturate, ← Int.mul_assoc]
    rfl
  have h2 : saturate (2 * n) ∈ rampedSizes sizes.mergeSort := hmem 0 (by decide)
  have h4 : double (double n) ∈ rampedSizes sizes.mergeSort := hmem 1 (by decide)
  have h8 : double (double (double n)) ∈ rampedSizes sizes.mergeSort := hmem 2 (by decide)
  rw [hquad] at h4 h8
  rw [hoct] at h8
  intro c hc
  rcases List.mem_cons.1 hc with rfl | hc
  · exact h2
  rcases List.mem_cons.1 hc with rfl | hc
  · exact h4
  · exact List.mem_singleton.1 hc ▸ h8

/-- All shapes are different, and each one sets the steps to values within the domain. The whole
domain is among them. A wide search keeps the basic shapes in their order and adds those that fit
with the sizes of any dimensions doubled, and the cubes of multiples of the largest size. -/
theorem blockShapes_explore (h : steps blocks ≠ []) (o : Options) :
    (∀ level, (blockShapes blocks args level o).Nodup ∧
      (∀ b ∈ blockShapes blocks args level o, Within blocks args b) ∧
      domain blocks args ∈ blockShapes blocks args level o) ∧
    (blockShapes blocks args .basic o).Sublist (blockShapes blocks args .aggressive o) ∧
    (∀ b ∈ blockShapes blocks args .basic o, ∀ at_ : List Nat, at_ ≠ [] →
      (∀ i ∈ at_, i < b.length) → Within blocks args (doubleAt at_ b) →
      doubleAt at_ b ∈ blockShapes blocks args .aggressive o) ∧
    ∀ n ∈ o.blockSizes, (∀ m ∈ o.blockSizes, m ≤ n) → ∀ c ∈ [2, 4, 8],
      Within blocks args (cube (domain blocks args) (saturate (c * n))) →
      cube (domain blocks args) (saturate (c * n)) ∈ blockShapes blocks args .aggressive o := by
  have hw : domain blocks args ≠ [] := by
    rw [domain_eq, ne_eq, List.map_eq_nil_iff]
    exact h
  refine ⟨fun level => ⟨?_, fun b => within_of_mem_blockShapes,
    whole_mem_blockShapes hw level o⟩, blockShapes_sublist hw o,
    fun b hb at_ hne hlt hin => doubleAt_mem_blockShapes hb hne hlt hin,
    fun n hn hmax c hc hin => ?_⟩
  · rw [blockShapes_eq hw]
    exact nodup_eraseDups _
  · exact cube_mem_blockShapes hw (saturate_mem_rampedSizes hn hmax c hc)
      (by simp only [saturate, maxInt64, minInt64]; omega) hin

def plane : List KernelDimension :=
  [.block (.space "x0_blk0") "x0_blk0_size" (.space "x"),
    .block (.space "y0_blk0") "y0_blk0_size" (.space "y")]

def planeBounds : Arguments := ⟨[("x_m", .int 0), ("x_M", .int 511), ("y_m", .int 0), ("y_M", .int 63)]⟩

theorem blockShapes_explore_plane : steps plane ≠ [] ∧
    [("x0_blk0_size", 16), ("y0_blk0_size", 8)] ∈ blockShapes plane planeBounds .aggressive {} := by
  have hsteps : steps plane ≠ [] := by decide
  obtain ⟨-, -, hdoubled, -⟩ := @blockShapes_explore _ planeBounds hsteps {}
  have hbasic : cube (domain plane planeBounds) 8 ∈ blockShapes plane planeBounds .basic {} :=
    (mem_blockShapes (by decide)).2 ⟨List.mem_append_left _
      (List.mem_map_of_mem (List.mem_mergeSort.2 (by decide))), by decide⟩
  exact ⟨hsteps, hdoubled _ hbasic [0] (by decide) (by decide)
    (within_of_fits (by decide) (by decide))⟩

end Candidates

end Stencil
