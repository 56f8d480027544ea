import Mathlib.Logic.Function.Basic
import Stencil.Proofs.Assignment.Extraction
import Stencil.Proofs.Assignment.Inlining
import Stencil.Proofs.Rational

namespace Stencil.Extraction

open Stencil.Expr Stencil.Flow Schedule

variable {α : Type}

def Bare (fresh : Nat → String) (e : Expr α) : Prop := ∀ n, sym (fresh n) ∉ e.inputs

theorem Bare.arg {fresh : Nat → String} {e a : Expr α} (h : Bare fresh e) (ha : a ∈ e.args) :
    Bare fresh a := fun n hn => h n (mem_inputs_args ⟨a, ha, hn⟩)

variable [Arithmetic α]

structure Recorded (p : Policy α) (fresh : Nat → String) (F : Found α) : Prop where
  named : Numbered fresh F
  canonical : ∀ k ∈ F.keys, Canonical k
  bare : ∀ k ∈ F.keys, Bare fresh k
  rule : ∀ k ∈ F.keys, p.rule k = true
  pays : ∀ k ∈ F.keys, p.pays k = true

/-- `T` gives the temporaries their meaning. -/
structure Explains (fresh : Nat → String) (F : Found α) (T : String → Option (Expr α)) : Prop where
  found : ∀ n k, F.keys[n]? = some k → T (fresh n) = some k
  other : ∀ t, (∀ n, t ≠ fresh n) → T t = none

structure Remnant (fresh : Nat → String) (F : Found α) (e x : Expr α) : Prop where
  value : ∀ T, Explains fresh F T → Abbreviates T x e
  known : ∀ n, sym (fresh n) ∈ x.inputs → n < F.size

structure Settled (p : Policy α) (fresh : Nat → String) (F : Found α) (e : Expr α) (x : Part α) :
    Prop where
  remnant : Remnant fresh F e x.1
  equal : x.2 = true → (x.1 == e) = true
  bare : x.2 = true → Bare fresh x.1
  rule : x.2 = true → p.rule x.1 = true

def ReadIn (fresh : Nat → String) (F F' : Found α) (x : Expr α) : Prop :=
  ∀ n, F.size ≤ n → n < F'.size → sym (fresh n) ∈ x.inputs

variable {p : Policy α} {fresh : Nat → String} {F F' : Found α} {e x : Expr α}

omit [Arithmetic α] in
theorem keys_initial {F F' : Table (Expr α) (Expr α)} (hF : F.entries <+: F'.entries) :
    F.keys <+: F'.keys := hF.map _

omit [Arithmetic α] in
theorem size_le {F F' : Table (Expr α) (Expr α)} (hF : F.entries <+: F'.entries) :
    F.size ≤ F'.size := hF.length_le

theorem readIn_self (x : Expr α) : ReadIn fresh F F x :=
  fun _ hle hlt => absurd hlt (Nat.not_lt.2 hle)

theorem Explains.anti {T : String → Option (Expr α)} (hF : F.entries <+: F'.entries)
    (h : Explains fresh F' T) : Explains fresh F T where
  found n k hk := h.found n k (by
    rw [List.getElem?_eq_some_iff] at hk
    obtain ⟨hn, rfl⟩ := hk
    exact List.prefix_iff_getElem?.1 (keys_initial hF) n hn)
  other := h.other

theorem Remnant.mono (hF : F.entries <+: F'.entries) (h : Remnant fresh F e x) :
    Remnant fresh F' e x :=
  ⟨fun T hT => h.value T (hT.anti hF), fun n hn => (h.known n hn).trans_le (size_le hF)⟩

theorem Settled.mono {x : Part α} (hF : F.entries <+: F'.entries) (h : Settled p fresh F e x) :
    Settled p fresh F' e x :=
  ⟨h.remnant.mono hF, h.equal, h.bare, h.rule⟩

theorem exists_explains (hf : Function.Injective fresh) (F : Found α) :
    ∃ T, Explains fresh F T ∧ ∀ t, T t ≠ none → ∃ n < F.size, t = fresh n := by
  refine ⟨meanings fresh (fun n => F.keys[n]?) fun _ => none, ⟨fun n k hk => ?_,
    fun t => meanings_other⟩, fun t ht => ?_⟩
  · rw [meanings_name hf, hk]
  · by_cases hname : ∃ n, t = fresh n
    · obtain ⟨n, rfl⟩ := hname
      rw [meanings_name hf, ne_eq, List.getElem?_eq_none_iff, not_le, Table.keys,
        List.length_map] at ht
      exact ⟨n, ht, rfl⟩
    · exact absurd (meanings_other fun n hn => hname ⟨n, hn⟩) ht

theorem Bare.meaning {T : String → Option (Expr α)} (hT : Explains fresh F T)
    (hx : Bare fresh x) : ∀ t, sym t ∈ x.inputs → T t = none := fun t ht =>
  hT.other t fun n hn => hx n (hn ▸ ht)

section LawfulArithmetic

variable [LawfulArithmetic α]

theorem remnant_of_bare (hc : Canonical x) (hx : Bare fresh x) (hxe : (x == e) = true) :
    Remnant fresh F e x :=
  ⟨fun _ hT => (Abbreviates.refl hc (hx.meaning hT)).congr hxe, fun n hn => absurd hn (hx n)⟩

omit [LawfulArithmetic α] in
theorem getElem?_keys (h : Numbered fresh F) {k t : Expr α} (hmem : (k, t) ∈ F.entries) :
    ∃ n < F.size, t = sym (fresh n) ∧ F.keys[n]? = some k := by
  obtain ⟨n, hn⟩ := List.mem_iff_getElem?.1 hmem
  have hlt : n < F.entries.length := (List.getElem?_eq_some_iff.1 hn).1
  have hv := congrArg (·[n]?) h
  simp only [Table.values, List.getElem?_map, hn, Option.map_some, List.getElem?_range hlt,
    Table.size, Option.some.injEq] at hv
  exact ⟨n, hlt, hv, by rw [Table.keys, List.getElem?_map, hn, Option.map_some]⟩

omit [LawfulArithmetic α] in
theorem remnant_name {n : Nat} {k : Expr α} (hf : Function.Injective fresh)
    (hk : F.keys[n]? = some k) (hke : (k == e) = true) : Remnant fresh F e (sym (fresh n)) where
  value T hT := abbreviates_sym (hT.found n k hk) hke
  known m hm := by
    rw [inputs_of_isInput rfl, List.mem_singleton] at hm
    rw [hf (sym.inj hm)]
    have hlt := (List.getElem?_eq_some_iff.1 hk).1
    rwa [Table.keys, List.length_map] at hlt

variable (hf : Function.Injective fresh)

include hf

theorem extract_leaves (hc : Canonical x) (hx : Bare fresh x) (hrule : p.rule x = true)
    (hpays : p.pays x = true) (hxe : (x == e) = true) :
    Yields (Recorded p fresh) F (extract fresh x) fun F' t =>
      Remnant fresh F' e t ∧ ReadIn fresh F F' t := by
  intro hs
  cases hget : F.get? x with
  | some t =>
    obtain ⟨k, hmem, hkx⟩ := Table.exists_mem_of_get? hget
    obtain ⟨n, -, rfl, hk⟩ := getElem?_keys hs.named hmem
    rw [run_extract_of_some hget]
    exact ⟨hs, List.prefix_rfl, remnant_name hf hk (BEq.trans hkx hxe), readIn_self _⟩
  | none =>
    have hins := entries_insert (t := sym (fresh F.size)) hget
    have hkeys : (F.insert x (sym (fresh F.size))).keys = F.keys ++ [x] := by
      rw [Table.keys, hins, List.map_append]
      rfl
    have hall : ∀ {P : Expr α → Prop}, (∀ k ∈ F.keys, P k) → P x →
        ∀ k ∈ (F.insert x (sym (fresh F.size))).keys, P k := by
      intro P hP hPx k hk
      rw [hkeys] at hk
      rcases List.mem_append.1 hk with hk | hk
      · exact hP k hk
      · exact List.mem_singleton.1 hk ▸ hPx
    rw [run_extract_of_none hget]
    refine ⟨⟨hs.named.insert hget, hall hs.canonical hc, hall hs.bare hx, hall hs.rule hrule,
      hall hs.pays hpays⟩, ?_, ?_, fun m hle hlt => ?_⟩
    · show F.entries <+: (F.insert x (sym (fresh F.size))).entries
      rw [hins]
      exact List.prefix_append _ _
    · refine remnant_name hf ?_ hxe
      show (F.insert x (sym (fresh F.size))).keys[F.size]? = some x
      rw [hkeys, Table.size, ← List.length_map (·.1)]
      exact List.getElem?_concat_length
    · have hsize : (F.insert x (sym (fresh F.size))).size = F.size + 1 := by
        rw [Table.size, hins, List.length_append]
        rfl
      replace hlt : m < (F.insert x (sym (fresh F.size))).size := hlt
      obtain rfl : m = F.size := by omega
      simp [inputs_of_isInput, isInput, isSymbol]

theorem extractIf_leaves {x : Part α} (h : Settled p fresh F e x) (hx : x.2 = true)
    (hc : Canonical x.1) : Yields (Recorded p fresh) F (extractIf p fresh x.1) fun F' t =>
      Remnant fresh F' e t ∧ ReadIn fresh F F' t := by
  unfold extractIf
  split
  · rename_i hpays
    exact extract_leaves hf hc (h.bare hx) (h.rule hx) hpays (h.equal hx)
  · exact .pure ⟨h.remnant, readIn_self _⟩

omit [LawfulArithmetic α] in
theorem Remnant.canonical (h : Remnant fresh F e x) : Canonical x :=
  have ⟨T, hT, _⟩ := exists_explains hf F
  (h.value T hT).canonical

theorem Remnant.rebuild {xs : List (Expr α)} (hc : Canonical e) (hleaf : e.isLeaf = false)
    (hxs : ∀ x ∈ xs, ∃ a, Remnant fresh F a x)
    (hflat : ∀ T, Explains fresh F T →
      Reorders e ((flatten e e.args).map kind) ((flatten e (xs.map (expand T))).map kind))
    (htwo : e.isSum = true ∨ e.isProduct = true → 2 ≤ xs.length) :
    Fits e xs ∧ Remnant fresh F e (rebuild e xs) := by
  have hself : ∀ T, Explains fresh F T → ∀ x ∈ xs, Abbreviates T x (expand T x) := by
    intro T hT x hx
    obtain ⟨a, ha⟩ := hxs x hx
    exact (ha.value T hT).self
  have hinput := isInput_of_isLeaf hleaf
  have hsym : e.isSymbol = false := by cases e <;> simp_all [isInput, isSymbol]
  have hfits : Fits e xs := by
    obtain ⟨T, hT, -⟩ := exists_explains hf F
    exact fits_of_expand (hself T hT) (hc.fits.of_kinds (hflat T hT)) htwo
  refine ⟨hfits, fun T hT => ?_, fun n hn => ?_⟩
  · exact (Abbreviates.regroup hc hsym (hself T hT) hc.fits (hflat T hT) htwo).congr
      (kind_eq.1 (kind_rebuild_self hc))
  · obtain ⟨x, hx, hnx⟩ := exists_of_mem_inputs_rebuild hfits hinput hn
    obtain ⟨a, ha⟩ := hxs x hx
    exact ha.known n hnx

structure Parts (p : Policy α) (fresh : Nat → String) (F : Found α) (e : Expr α)
    (parts : List (Part α)) : Prop where
  canonical : Canonical e
  leaf : e.isLeaf = false
  settled : List.Forall₂ (Settled p fresh F) e.args parts

section Parts

variable {parts : List (Part α)} (h : Parts p fresh F e parts)

include h

omit hf [LawfulArithmetic α] in
theorem Parts.mono (hF : F.entries <+: F'.entries) : Parts p fresh F' e parts :=
  ⟨h.canonical, h.leaf, h.settled.imp fun _ _ hax => hax.mono hF⟩

omit hf [LawfulArithmetic α] in
theorem Parts.exists_settled {x : Part α} (hx : x ∈ parts) :
    ∃ a ∈ e.args, Settled p fresh F a x := by
  obtain ⟨a, ha, hax⟩ := forall₂_mem_right h.settled x hx
  exact ⟨a, ha, hax⟩

omit hf in
theorem Parts.kinds {T : String → Option (Expr α)} (hT : Explains fresh F T) :
    e.args.map kind = ((parts.map (·.1)).map (expand T)).map kind := by
  rw [List.map_map, List.map_map]
  have hsettled := h.settled
  clear h
  generalize e.args = as at hsettled
  induction hsettled with
  | nil => rfl
  | cons hax _ ih =>
    rw [List.map_cons, List.map_cons, ih, kind_eq.2 (BEq.symm (hax.remnant.value T hT).value)]
    rfl

theorem Parts.whole (hall : ∀ x ∈ parts, x.2 = true) :
    (rebuild e (parts.map (·.1)) == e) = true ∧ Canonical (rebuild e (parts.map (·.1))) ∧
      Bare fresh (rebuild e (parts.map (·.1))) := by
  have hcanonical : ∀ c ∈ parts.map (·.1), Canonical c := by
    intro c hc
    obtain ⟨x, hx, rfl⟩ := List.mem_map.1 hc
    obtain ⟨a, -, hax⟩ := h.exists_settled hx
    exact hax.remnant.canonical hf
  have hkinds : e.args.map kind = (parts.map (·.1)).map kind := by
    refine map_kind_eq.2 (List.forall₂_map_right_iff.2 ?_)
    refine (List.forall₂_iff_zip.2 ⟨h.settled.length_eq, fun {a x} hax => ?_⟩)
    have hx := (List.of_mem_zip hax).2
    exact BEq.symm (((List.forall₂_iff_zip.1 h.settled).2 hax).equal (hall x hx))
  have hflat := Reorders.of_eq (e := e) (map_kind_flatten (e := e) hkinds)
  refine ⟨?_, canonical_rebuild h.canonical hcanonical, fun n hn => ?_⟩
  · exact kind_eq.1 ((kind_rebuild h.canonical.fits hflat).symm.trans
      (kind_rebuild_self h.canonical))
  · obtain ⟨c, hc, hnc⟩ := exists_of_mem_inputs_rebuild (h.canonical.fits.of_kinds hflat)
      (isInput_of_isLeaf h.leaf) hn
    obtain ⟨x, hx, rfl⟩ := List.mem_map.1 hc
    obtain ⟨a, -, hax⟩ := h.exists_settled hx
    exact hax.bare (hall x hx) n hnc

theorem growOrExtract_leaves {root : Bool} (hall : ∀ x ∈ parts, x.2 = true)
    (hrule : p.rule (rebuild e (parts.map (·.1))) = true) :
    Yields (Recorded p fresh) F (growOrExtract p fresh root (rebuild e (parts.map (·.1))))
      fun F' x => Settled p fresh F' e x ∧ ReadIn fresh F F' x.1 := by
  obtain ⟨hequal, hc, hbare⟩ := h.whole hf hall
  unfold growOrExtract
  split
  · rename_i hif
    have hpays := (Bool.and_eq_true_iff.1 hif).2
    refine (extract_leaves hf hc hbare hrule hpays hequal).bind fun F' t _ ht => .pure ?_
    exact ⟨⟨ht.1, by simp, by simp, by simp⟩, ht.2⟩
  · exact .pure ⟨⟨remnant_of_bare hc hbare hequal, fun _ => hequal, fun _ => hbare,
      fun _ => hrule⟩, readIn_self _⟩

theorem extractOperands_leaves {F₀ : Found α}
    (hread : ∀ n, F₀.size ≤ n → n < F.size → ∃ x ∈ parts, sym (fresh n) ∈ x.1.inputs) :
    Yields (Recorded p fresh) F (extractOperands p fresh e parts) fun F' x =>
      Remnant fresh F' e x ∧ ReadIn fresh F₀ F' x := by
  have hlen := h.settled.length_eq
  have hfst := List.map_fst_zip hlen.le
  have hsnd := List.map_snd_zip hlen.ge
  have hzip : List.Forall₂ (fun (d : Expr α × Part α) x => d.2 = x ∧ Settled p fresh F d.1 x)
      (e.args.zip parts) parts := by
    refine List.forall₂_iff_get.2 ⟨by simp [hlen], fun i h₁ h₂ => ?_⟩
    simp only [List.get_eq_getElem, List.getElem_zip, true_and]
    exact (List.forall₂_iff_get.1 h.settled).2 i _ _
  let P (d : Expr α × Part α) (F' : Found α) (c : Expr α) : Prop :=
    Remnant fresh F' d.1 c ∧ (d.2.2 = false → c = d.2.1)
  have hmono : ∀ d F' F'' c, F'.entries <+: F''.entries → P d F' c → P d F'' c :=
    fun _ _ _ _ hF hd => ⟨hd.1.mono hF, hd.2⟩
  refine (Yields.mapM_found (U := fun n c => sym (fresh n) ∈ c.inputs) hmono hzip
    fun d x hdx F' hF => ?_).bind fun F' cs hF hcs => .pure ?_
  · obtain ⟨rfl, hx⟩ := hdx
    have hx := hx.mono hF
    split
    · rename_i hflag
      exact (extractIf_leaves hf hx hflag (hx.remnant.canonical hf)).mono fun _ _ ht =>
        ⟨⟨ht.1, by simp [hflag]⟩, ht.2⟩
    · exact .pure ⟨⟨hx.remnant, fun _ => rfl⟩, readIn_self _⟩
  · obtain ⟨hcs, hfound⟩ := hcs
    have hremnants : List.Forall₂ (Remnant fresh F') e.args cs := by
      have hall := hcs.imp fun _ _ hd => hd.1
      rwa [← List.forall₂_map_left_iff (f := Prod.fst), hfst] at hall
    have hflat : ∀ T, Explains fresh F' T →
        Reorders e ((flatten e e.args).map kind) ((flatten e (cs.map (expand T))).map kind) := by
      intro T hT
      refine .of_eq (map_kind_flatten (map_kind_eq.2 (List.forall₂_map_right_iff.2 ?_)))
      exact hremnants.imp fun a c hac => BEq.symm (hac.value T hT).value
    obtain ⟨hfits, hremnant⟩ := Remnant.rebuild hf h.canonical h.leaf
      (fun c hc => have ⟨a, _, hac⟩ := forall₂_mem_right hremnants c hc; ⟨a, hac⟩) hflat
      fun hac => hremnants.length_eq ▸ h.canonical.two_le_args hac
    refine ⟨hremnant, fun n hle hlt => ?_⟩
    by_cases hn : n < F.size
    · obtain ⟨x, hx, hnx⟩ := hread n hle hn
      obtain ⟨d, hd, rfl⟩ := List.mem_map.1 (hsnd.symm ▸ hx)
      obtain ⟨c, hc, -, hsame⟩ := forall₂_mem_right hcs.flip d hd
      obtain ⟨a, -, hax⟩ := h.exists_settled hx
      have hflag : d.2.2 = false := Bool.eq_false_iff.2 fun hflag => hax.bare hflag n hnx
      exact mem_inputs_rebuild_of_fits hfits hc (hsame hflag ▸ hnx)
    · obtain ⟨c, hc, hnc⟩ := hfound n (Nat.not_lt.1 hn) hlt
      exact mem_inputs_rebuild_of_fits hfits hc hnc

section Split

variable (hac : e.isSum = true ∨ e.isProduct = true)

omit hf in
theorem Parts.perm_kinds {T : String → Option (Expr α)} (hT : Explains fresh F T)
    (hmatching : ∀ m ∈ (parts.filter (·.2)).map (·.1), Abbreviates T m m) :
    (e.args.map kind).Perm
      ((((parts.filter (!·.2)).map (·.1)).map (expand T) ++
        (parts.filter (·.2)).map (·.1)).map kind) := by
  have hself : (((parts.filter (·.2)).map (·.1)).map (expand T)).map kind =
      ((parts.filter (·.2)).map (·.1)).map kind := by
    rw [List.map_map]
    exact List.map_congr_left fun m hm => kind_eq.2 (hmatching m hm).value
  have hsplit := (((List.filter_append_perm (fun x : Part α => x.2) parts).map
    (·.1)).map (expand T)).map kind
  rw [h.kinds hT]
  refine hsplit.symm.trans ?_
  rw [List.map_append, List.map_append, List.map_append, List.map_append, hself]
  exact List.perm_append_comm

omit [LawfulArithmetic α] in
theorem Parts.matching_bare {m : Expr α} (hm : m ∈ (parts.filter (·.2)).map (·.1)) :
    Canonical m ∧ Bare fresh m ∧ p.rule m = true := by
  obtain ⟨x, hx, rfl⟩ := List.mem_map.1 hm
  obtain ⟨hmem, hflag⟩ := List.mem_filter.1 hx
  obtain ⟨a, -, hax⟩ := h.exists_settled hmem
  exact ⟨hax.remnant.canonical hf, hax.bare hflag, hax.rule hflag⟩

include hac

theorem Parts.fits_matching (htwo : 2 ≤ ((parts.filter (·.2)).map (·.1)).length) :
    Fits e ((parts.filter (·.2)).map (·.1)) := by
  obtain ⟨T, hT, -⟩ := exists_explains hf F
  have hmatching := fun m hm => (h.matching_bare hf (m := m) hm)
  have hperm := h.perm_kinds hT fun m hm =>
    .refl (hmatching m hm).1 ((hmatching m hm).2.1.meaning hT)
  refine Fits.right (h.canonical.fits.of_kinds (.of_perm hac (perm_kind_flatten hperm))) hac ?_
  exact htwo.trans (length_le_flatten fun m hm => (hmatching m hm).1)

theorem Parts.regroup {F₀ : Found α} {ys : List (Expr α)} (hF : F.entries <+: F'.entries)
    (hys : ∀ y ∈ ys, ∃ a, Remnant fresh F' a y)
    (hkinds : ∀ T, Explains fresh F' T →
      ((flatten e ((parts.filter (·.2)).map (·.1))).map kind).Perm
        ((flatten e (ys.map (expand T))).map kind))
    (htwo : 2 ≤ ((parts.filter (!·.2)).map (·.1) ++ ys).length)
    (hread : ∀ n, F₀.size ≤ n → n < F.size → ∃ x ∈ parts, sym (fresh n) ∈ x.1.inputs)
    (hfound : ∀ n, F.size ≤ n → n < F'.size → ∃ y ∈ ys, sym (fresh n) ∈ y.inputs) :
    Remnant fresh F' e (rebuild e ((parts.filter (!·.2)).map (·.1) ++ ys)) ∧
      ReadIn fresh F₀ F' (rebuild e ((parts.filter (!·.2)).map (·.1) ++ ys)) := by
  have h' := h.mono hF
  have hmatching := fun m hm => (h.matching_bare hf (m := m) hm)
  have hremnants : ∀ c ∈ (parts.filter (!·.2)).map (·.1) ++ ys, ∃ a, Remnant fresh F' a c := by
    intro c hc
    rcases List.mem_append.1 hc with hc | hc
    · obtain ⟨x, hx, rfl⟩ := List.mem_map.1 hc
      obtain ⟨a, -, hax⟩ := h'.exists_settled (List.mem_filter.1 hx).1
      exact ⟨a, hax.remnant⟩
    · exact hys c hc
  obtain ⟨hfits, hremnant⟩ := Remnant.rebuild hf h.canonical h.leaf hremnants (fun T hT =>
    .of_perm hac ((perm_kind_flatten (h'.perm_kinds hT fun m hm =>
      .refl (hmatching m hm).1 ((hmatching m hm).2.1.meaning hT))).trans (by
        rw [List.map_append, flatten_append, flatten_append, List.map_append, List.map_append]
        exact (hkinds T hT).append_left _))) fun _ => htwo
  refine ⟨hremnant, fun n hle hlt => ?_⟩
  by_cases hn : n < F.size
  · obtain ⟨x, hx, hnx⟩ := hread n hle hn
    obtain ⟨a, -, hax⟩ := h.exists_settled hx
    have hflag : x.2 = false := Bool.eq_false_iff.2 fun hflag => hax.bare hflag n hnx
    have hmem : x.1 ∈ (parts.filter (!·.2)).map (·.1) :=
      List.mem_map_of_mem (List.mem_filter.2 ⟨hx, by simp [hflag]⟩)
    exact mem_inputs_rebuild_of_fits hfits (List.mem_append_left ys hmem) hnx
  · obtain ⟨y, hy, hny⟩ := hfound n (Nat.not_lt.1 hn) hlt
    exact mem_inputs_rebuild_of_fits hfits (List.mem_append_right _ hy) hny

theorem splitOperands_leaves {F₀ : Found α}
    (hnot : ¬ ((parts.all (·.2) && p.rule (rebuild e (parts.map (·.1)))) = true))
    (hread : ∀ n, F₀.size ≤ n → n < F.size → ∃ x ∈ parts, sym (fresh n) ∈ x.1.inputs) :
    Yields (Recorded p fresh) F (splitOperands p fresh e parts) fun F' x =>
      Remnant fresh F' e x ∧ ReadIn fresh F₀ F' x := by
  have hmatching := fun m hm => (h.matching_bare hf (m := m) hm)
  simp only [splitOperands]
  split
  · rename_i hif
    simp only [Bool.and_eq_true, decide_eq_true_eq] at hif
    obtain ⟨⟨htwo, hrule⟩, hpays⟩ := hif
    have hfits := h.fits_matching hf hac htwo
    have hcanonical := canonical_rebuild h.canonical fun m hm => (hmatching m hm).1
    have hbare : Bare fresh (rebuild e ((parts.filter (·.2)).map (·.1))) := fun n hn => by
      obtain ⟨m, hm, hnm⟩ := exists_of_mem_inputs_rebuild hfits (isInput_of_isLeaf h.leaf) hn
      exact (hmatching m hm).2.1 n hnm
    refine (extract_leaves hf hcanonical hbare hrule hpays BEq.rfl).bind fun F' t hF ht => .pure ?_
    refine h.regroup hf hac hF (fun y hy => ?_) (fun T hT => ?_) ?_ hread fun n hle hlt => ?_
    · exact ⟨_, List.mem_singleton.1 hy ▸ ht.1⟩
    · have hkind := operands_of_kind (e := e) (kind_eq.2 (ht.1.value T hT).value)
      rw [List.map_singleton, flatten_eq_flatMap e [_], List.flatMap_singleton, hkind,
        operands_rebuild hfits hac]
      exact ((reorders_args hfits).perm.map kind).symm
    · -- one of the operands does not satisfy the rule, since all of them together do not
      have hother : (parts.filter (!·.2)).map (·.1) ≠ [] := by
        intro hnil
        have hall : ∀ x ∈ parts, x.2 = true := by simpa using hnil
        rw [List.filter_eq_self.2 hall] at hrule
        exact hnot (Bool.and_eq_true_iff.2 ⟨List.all_eq_true.2 hall, hrule⟩)
      have hlen := List.length_pos_iff.2 hother
      rw [List.length_append, List.length_singleton]
      omega
    · exact ⟨t, List.mem_cons_self, ht.2 n hle hlt⟩
  · have hsettled : List.Forall₂ (fun m m' => m = m' ∧ m ∈ (parts.filter (·.2)).map (·.1))
        ((parts.filter (·.2)).map (·.1)) ((parts.filter (·.2)).map (·.1)) :=
      List.forall₂_same.2 fun m hm => ⟨rfl, hm⟩
    refine (Yields.mapM_found (U := fun n c => sym (fresh n) ∈ c.inputs)
      (P := fun m F' c => Remnant fresh F' m c) (fun _ _ _ _ hF hm => hm.mono hF) hsettled
      fun m m' hmm' F' hF => ?_).bind fun F' ms hF hms => .pure ?_
    · obtain ⟨rfl, hm⟩ := hmm'
      obtain ⟨hc, hbare, hrule⟩ := hmatching m hm
      exact extractIf_leaves (e := m) (x := (m, true)) hf
        ⟨remnant_of_bare hc hbare BEq.rfl, fun _ => BEq.rfl, fun _ => hbare, fun _ => hrule⟩ rfl hc
    · refine h.regroup hf hac hF (fun y hy => ?_) (fun T hT => ?_) ?_ hread hms.2
      · obtain ⟨m, -, hmy⟩ := forall₂_mem_right hms.1 y hy
        exact ⟨m, hmy⟩
      · refine perm_kind_flatten (.of_eq (map_kind_eq.2 (List.forall₂_map_right_iff.2 ?_)))
        exact hms.1.imp fun m c hmc => BEq.symm (hmc.value T hT).value
      · have hlen := (List.filter_append_perm (fun x : Part α => x.2) parts).length_eq
        have htwo := h.canonical.two_le_args hac
        rw [h.settled.length_eq] at htwo
        rw [List.length_append] at hlen ⊢
        rw [← hms.1.length_eq, List.length_map, List.length_map]
        omega

end Split

end Parts

theorem node_leaves {root : Bool} {parts : List (Part α)} {F₀ : Found α} (hc : Canonical e)
    (hbare : Bare fresh e) (hparts : List.Forall₂ (Settled p fresh F) e.args parts)
    (hread : ∀ n, F₀.size ≤ n → n < F.size → ∃ x ∈ parts, sym (fresh n) ∈ x.1.inputs) :
    Yields (Recorded p fresh) F (node p fresh root e parts) fun F' x =>
      Settled p fresh F' e x ∧ ReadIn fresh F₀ F' x.1 := by
  have hpart : ∀ {e : Expr α} {F' : Found α} {c : Expr α},
      Remnant fresh F' e c ∧ ReadIn fresh F₀ F' c →
        Settled p fresh F' e (c, false) ∧ ReadIn fresh F₀ F' c :=
    fun hc => ⟨⟨hc.1, by simp, by simp, by simp⟩, hc.2⟩
  simp only [node]
  split
  · rename_i hempty
    refine .pure ⟨⟨remnant_of_bare hc hbare BEq.rfl, fun _ => BEq.rfl, fun _ => hbare,
      fun hrule => hrule⟩, fun n hle hlt => ?_⟩
    obtain ⟨x, hx, -⟩ := hread n hle hlt
    rw [List.isEmpty_iff.1 hempty] at hx
    exact absurd hx List.not_mem_nil
  · rename_i hne
    have hleaf : e.isLeaf = false := by
      refine isLeaf_of_args fun hempty => hne ?_
      have hlen := hparts.length_eq
      rw [List.isEmpty_iff.1 hempty] at hlen
      exact List.isEmpty_iff.2 (List.eq_nil_of_length_eq_zero hlen.symm)
    have h : Parts p fresh F e parts := ⟨hc, hleaf, hparts⟩
    split
    · rename_i hif
      obtain ⟨hall, hrule⟩ := Bool.and_eq_true_iff.1 hif
      have hall := List.all_eq_true.1 hall
      refine (growOrExtract_leaves hf h hall hrule).mono fun F' x hx => ⟨hx.1, fun n hle hlt => ?_⟩
      by_cases hn : n < F.size
      · obtain ⟨x, hx, hnx⟩ := hread n hle hn
        obtain ⟨a, -, hax⟩ := h.exists_settled hx
        exact absurd hnx (hax.bare (hall x hx) n)
      · exact hx.2 n (Nat.not_lt.1 hn) hlt
    · rename_i hif
      split
      · exact (splitOperands_leaves hf h (.inl rfl) hif hread).bind fun F' c _ hc => .pure (hpart hc)
      · exact (splitOperands_leaves hf h (.inr rfl) hif hread).bind fun F' c _ hc => .pure (hpart hc)
      · exact (extractOperands_leaves hf h hread).bind fun F' c _ hc => .pure (hpart hc)

omit [LawfulArithmetic α] hf in
theorem mapM_run_leaves (h : ∀ a ∈ e.args, ∀ F : Found α,
    Yields (Recorded p fresh) F (run p fresh a) fun F' x =>
      Settled p fresh F' a x ∧ ReadIn fresh F F' x.1) :
    Yields (Recorded p fresh) F (e.args.mapM (run p fresh)) fun F' parts =>
      List.Forall₂ (Settled p fresh F') e.args parts ∧
        ∀ n, F.size ≤ n → n < F'.size → ∃ x ∈ parts, sym (fresh n) ∈ x.1.inputs := by
  have hrefl : List.Forall₂ (fun a b : Expr α => a = b ∧ a ∈ e.args) e.args e.args :=
    List.forall₂_same.2 fun a ha => ⟨rfl, ha⟩
  refine Yields.mapM_found (U := fun n x => sym (fresh n) ∈ x.1.inputs)
    (P := fun a F' x => Settled p fresh F' a x) (fun _ _ _ _ hF hax => hax.mono hF) hrefl
    fun a b hab F' _ => ?_
  obtain ⟨rfl, ha⟩ := hab
  exact h a ha F'

theorem run_leaves (hc : Canonical e) (hbare : Bare fresh e) (F : Found α) :
    Yields (Recorded p fresh) F (run p fresh e) fun F' x =>
      Settled p fresh F' e x ∧ ReadIn fresh F F' x.1 := by
  induction e using inductArgs generalizing F with
  | node e ih =>
    rw [run_eq]
    refine (mapM_run_leaves fun a ha => ih a ha (hc.args a ha) (hbare.arg ha)).bind ?_
    exact fun F' parts _ hparts => node_leaves hf hc hbare hparts.1 hparts.2

theorem runRoot_leaves (hc : Canonical e) (hbare : Bare fresh e) (F : Found α) :
    Yields (Recorded p fresh) F (runRoot p fresh e) fun F' x =>
      Remnant fresh F' e x ∧ ReadIn fresh F F' x := by
  refine (mapM_run_leaves fun a ha =>
    run_leaves hf (hc.args a ha) (hbare.arg ha)).bind fun F₁ parts _ hparts => ?_
  exact (node_leaves hf hc hbare hparts.1 hparts.2).bind fun F₂ x _ hx => .pure ⟨hx.1.remnant, hx.2⟩

theorem extractAll_leaves {as : List (Assignment α)} (hc : ∀ a ∈ as, Canonical a.rhs)
    (hbare : ∀ a ∈ as, Bare fresh a.rhs) :
    Yields (Recorded p fresh) F (extractAll p fresh as) fun F' as' =>
      List.Forall₂ (fun a a' => a' = a.withRhs a'.rhs ∧ Remnant fresh F' a.rhs a'.rhs) as as' ∧
        ∀ n, F.size ≤ n → n < F'.size → ∃ a' ∈ as', sym (fresh n) ∈ a'.rhs.inputs := by
  have hrefl : List.Forall₂ (fun a b : Assignment α => a = b ∧ a ∈ as) as as :=
    List.forall₂_same.2 fun a ha => ⟨rfl, ha⟩
  let P (a : Assignment α) (F' : Found α) (a' : Assignment α) : Prop :=
    a' = a.withRhs a'.rhs ∧ Remnant fresh F' a.rhs a'.rhs
  have hmono : ∀ a F' F'' a', F'.entries <+: F''.entries → P a F' a' → P a F'' a' :=
    fun _ _ _ _ hF haa' => ⟨haa'.1, haa'.2.mono hF⟩
  refine Yields.mapM_found (U := fun n a' => sym (fresh n) ∈ a'.rhs.inputs) hmono hrefl
    fun a b hab F' _ => ?_
  obtain ⟨rfl, ha⟩ := hab
  exact (runRoot_leaves hf (hc a ha) (hbare a ha) F').bind fun F₁ x _ hx =>
    .pure ⟨⟨rfl, hx.1⟩, hx.2⟩

end LawfulArithmetic

section Defs

theorem Numbered.of_mem_defs (h : Numbered fresh F) {d : Assignment α} (hd : d ∈ F.defs) :
    ∃ n < F.size, d.lhs = sym (fresh n) ∧ F.keys[n]? = some d.rhs := by
  obtain ⟨k, t, hmem, rfl⟩ := mem_defs.1 hd
  exact getElem?_keys h hmem

theorem Numbered.temp_iff (h : Numbered fresh F) {t : String} :
    Temp F.defs t ↔ ∃ n < F.size, t = fresh n := by
  constructor
  · rintro ⟨d, hd, hl⟩
    obtain ⟨n, hn, hl', -⟩ := h.of_mem_defs hd
    exact ⟨n, hn, sym.inj (hl.symm.trans hl')⟩
  · rintro ⟨n, hn, rfl⟩
    have hmem : sym (fresh n) ∈ F.values := h ▸ List.mem_map_of_mem (List.mem_range.2 hn)
    obtain ⟨⟨k, t⟩, hx, ht⟩ := List.mem_map.1 hmem
    exact ⟨_, mem_defs.2 ⟨k, t, hx, rfl⟩, ht⟩

theorem Recorded.bare_defs (h : Recorded p fresh F) {d : Assignment α} (hd : d ∈ F.defs) :
    Bare fresh d.rhs := by
  obtain ⟨k, t, hmem, rfl⟩ := mem_defs.1 hd
  exact h.bare k (List.mem_map.2 ⟨_, hmem, rfl⟩)

theorem Recorded.orderly (h : Recorded p fresh F) (hf : Function.Injective fresh)
    {exprs : List (Assignment α)} (htargets : ∀ a ∈ exprs, ∀ n, a.lhs ≠ sym (fresh n)) :
    Orderly F.defs exprs fun _ => 0 where
  scalar d hd := by
    obtain ⟨n, -, hl, -⟩ := h.named.of_mem_defs hd
    rw [hl]
    rfl
  nodup := by
    have hmap : F.defs.map (·.lhs) = F.values := by
      rw [Found.defs, List.map_map, Table.values]
      rfl
    rw [hmap, h.named]
    exact List.nodup_range.map fun m n hmn => hf (sym.inj hmn)
  lighter d hd s t _ ht htemp := by
    obtain ⟨n, -, rfl⟩ := h.named.temp_iff.1 htemp
    exact absurd ht (h.bare_defs hd n)
  needed d hd t ht htemp := by
    obtain ⟨n, -, rfl⟩ := h.named.temp_iff.1 htemp
    exact absurd ht (h.bare_defs hd n)
  targets a ha t htemp := by
    obtain ⟨n, -, rfl⟩ := h.named.temp_iff.1 htemp
    exact htargets a ha n

end Defs

/-- What is extracted satisfies the rule and pays. Its temporary is defined once, before it is read,
and it is read; with all of them put back, the assignments are as before. -/
theorem undo_apply [LawfulArithmetic α] {as : List (Assignment α)} (hf : Function.Injective fresh)
    (hc : ∀ a ∈ as, Canonical a.rhs)
    (hfresh : ∀ a ∈ as, ∀ n, a.lhs ≠ sym (fresh n) ∧ sym (fresh n) ∉ a.rhs.inputs) :
    (∀ d ∈ (apply p fresh as).found, p.rule d.rhs = true ∧ p.pays d.rhs = true ∧
        d ∈ (apply p fresh as).assignments ∧
        ∃ n, d.lhs = sym (fresh n) ∧ DefinedOnce (apply p fresh as).assignments (fresh n) ∧
          ∃ a ∈ (apply p fresh as).assignments, sym (fresh n) ∈ a.rhs.inputs) ∧
      List.Forall₂ Assignment.Equal
        (undo (apply p fresh as).found (apply p fresh as).assignments) as := by
  have hempty : Recorded p fresh .empty :=
    ⟨rfl, by simp [Table.keys, Table.empty], by simp [Table.keys, Table.empty],
      by simp [Table.keys, Table.empty], by simp [Table.keys, Table.empty]⟩
  obtain ⟨hs, -, hleft, hread⟩ := extractAll_leaves hf hc (fun a ha n => (hfresh a ha n).2) hempty
  rw [apply_eq]
  set F := ((extractAll p fresh as).run .empty).2
  set exprs := ((extractAll p fresh as).run .empty).1
  have htargets : ∀ a ∈ exprs, ∀ n, a.lhs ≠ sym (fresh n) := by
    intro a' ha' n
    obtain ⟨a, ha, heq, -⟩ := forall₂_mem_right hleft a' ha'
    rw [heq]
    exact (hfresh a ha n).1
  have horderly := hs.orderly hf htargets
  have hmem : ∀ {a}, a ∈ exprs ∨ a ∈ F.defs → a ∈ schedule F.defs exprs := fun ha =>
    horderly.perm.mem_iff.2 (List.mem_append.2 ha)
  refine ⟨fun d hd => ?_, ?_⟩
  · obtain ⟨n, hn, hl, hk⟩ := hs.named.of_mem_defs hd
    have hkey := List.mem_of_getElem? hk
    obtain ⟨a, ha, hna⟩ := hread n (Nat.zero_le n) hn
    exact ⟨hs.rule _ hkey, hs.pays _ hkey, hmem (.inr hd), n, hl,
      horderly.definedOnce ⟨d, hd, hl⟩, a, hmem (.inl ha), hna⟩
  · -- Written out, every right-hand side is the one that it came from.
    obtain ⟨T, hT, hnone⟩ := exists_explains hf F
    have hspelled : Spelled T as exprs F.defs := by
      refine ⟨fun t ht => ?_, fun d hd => ?_, hleft.imp fun a a' h => ⟨h.1, h.2.value T hT⟩⟩
      · by_contra hsome
        exact ht (hs.named.temp_iff.2 (hnone t hsome))
      · obtain ⟨n, -, hl, hk⟩ := hs.named.of_mem_defs hd
        exact ⟨fresh n, d.rhs, hl, hT.found n _ hk,
          .refl (hs.canonical _ (List.mem_of_getElem? hk)) ((hs.bare_defs hd).meaning hT)⟩
    refine horderly.undo hspelled .rfl (ready_never fun d hd i hi t hit htemp => ?_)
    obtain ⟨n, -, rfl⟩ := hs.named.temp_iff.1 htemp
    exact hs.bare_defs hd n (hit ▸ hi)

def unrelated : Policy ℚ := ⟨fun e => !e.reads "x", Expr.isOperation, false⟩

def mixed : List (Assignment ℚ) :=
  [{ lhs := sym "u", rhs := plus (sym "x") (times (sym "a") (sym "b")) }]

theorem inputs_mixed : (plus (sym "x") (times (sym "a") (sym "b")) : Expr ℚ).inputs =
    [sym "x", sym "a", sym "b"] := by cbv

theorem undo_apply_mixed :
    (apply unrelated strokes mixed).found.map (·.lhs) = [sym (strokes 0)] ∧
      DefinedOnce (apply unrelated strokes mixed).assignments (strokes 0) ∧
      List.Forall₂ Assignment.Equal (undo (apply unrelated strokes mixed).found
        (apply unrelated strokes mixed).assignments) mixed := by
  have hlhs : (apply unrelated strokes mixed).found.map (·.lhs) = [sym (strokes 0)] := by cbv
  have hleaf : ∀ s : String, Canonical (sym s : Expr ℚ) := .sym
  have hc : ∀ a ∈ mixed, Canonical a.rhs := by
    simp only [mixed, List.forall_mem_singleton, plus, times]
    exact canonical_sum (by simp [hleaf, canonical_product])
  have hfresh : ∀ a ∈ mixed, ∀ n, a.lhs ≠ sym (strokes n) ∧ sym (strokes n) ∉ a.rhs.inputs := by
    intro a ha n
    obtain rfl := List.mem_singleton.1 ha
    rw [inputs_mixed]
    simp [(ne_strokes (s := "u") (by decide) n), (ne_strokes (s := "x") (by decide) n).symm,
      (ne_strokes (s := "a") (by decide) n).symm, (ne_strokes (s := "b") (by decide) n).symm]
  obtain ⟨hfound, hundo⟩ := undo_apply (p := unrelated) strokes_injective hc hfresh
  obtain ⟨d, hd, hl⟩ := List.mem_map.1 (hlhs ▸ List.mem_cons_self)
  obtain ⟨-, -, -, n, hl', honce, -⟩ := hfound d hd
  rw [strokes_injective (sym.inj (hl'.symm.trans hl))] at honce
  exact ⟨hlhs, honce, hundo⟩

end Stencil.Extraction
