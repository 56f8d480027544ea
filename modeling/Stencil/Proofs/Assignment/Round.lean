import Stencil.Proofs.Assignment.Consistency

namespace Stencil.Sharing

open Stencil.Expr Stencil.Flow Schedule

variable {α : Type} [Arithmetic α]

structure Meant (T : String → Option (Expr α)) (as : List (Assignment α)) (s : State α) : Prop
    extends Spelled T as s.assignments s.defs where
  plain : ∀ d ∈ s.defs, d.increment = false
  origin : ∀ t k, T t = some k → ∃ a ∈ as, ∀ i ∈ k.inputs, i ∈ a.rhs.inputs

noncomputable def State.means (fresh : Nat → String) (s : State α) (keys : List (Expr α))
    (T : String → Option (Expr α)) : String → Option (Expr α) :=
  meanings (s.spare fresh) (fun n => keys[n]?.map (expand T)) T

variable [LawfulArithmetic α] {T : String → Option (Expr α)} {as : List (Assignment α)}
  {fresh : Nat → String} {top : Nat} {s : State α} {weight : String → Nat}
  {keys : List (Expr α)} {most : Nat}

theorem Meant.abbreviates (hm : Meant T as s) {a : Assignment α} (ha : a ∈ s.all) :
    Abbreviates T a.rhs (expand T a.rhs) := by
  rcases List.mem_append.1 ha with ha | ha
  · obtain ⟨t, k, -, -, hk⟩ := hm.definition a ha
    exact hk.self
  · obtain ⟨b, -, -, hab⟩ := forall₂_mem_right hm.assignments a ha
    exact hab.self

omit [LawfulArithmetic α] in
theorem Meant.exists_origin (hm : Meant T as s) {a : Assignment α} (ha : a ∈ s.all) :
    ∃ b ∈ as, ∀ i ∈ (expand T a.rhs).inputs, i ∈ b.rhs.inputs := by
  rcases List.mem_append.1 ha with ha | ha
  · obtain ⟨t, k, -, hT, hk⟩ := hm.definition a ha
    rw [inputs_congr hk.value]
    exact hm.origin t k hT
  · obtain ⟨b, hb, -, hab⟩ := forall₂_mem_right hm.assignments a ha
    rw [inputs_congr hab.value]
    exact ⟨b, hb, fun _ => id⟩

variable (hm : Meant T as s) (h : Consistent fresh top s weight)
  (hroom : s.defs.length + keys.length ≤ top) (hk : Choice s keys most)
  (hf : Function.Injective fresh)

omit [LawfulArithmetic α] in
theorem means_name (hf : Function.Injective fresh) {n : Nat} {k : Expr α} (hn : keys[n]? = some k) :
    s.means fresh keys T (s.spare fresh n) = some (expand T k) := by
  rw [State.means, meanings_name (State.spare_injective hf s), hn]
  rfl

include hm h hf

omit [LawfulArithmetic α] in
theorem Meant.means_other {t : String} (ht : ∀ n < keys.length, t ≠ s.spare fresh n) :
    s.means fresh keys T t = T t := by
  by_cases hname : ∃ n, t = s.spare fresh n
  · obtain ⟨n, rfl⟩ := hname
    have hn : keys[n]? = none :=
      List.getElem?_eq_none_iff.2 (not_lt.1 fun hlt => ht n hlt rfl)
    rw [State.means, meanings_name (State.spare_injective hf s), hn, Option.map_none]
    refine (hm.others _ fun htemp => ?_).symm
    obtain ⟨m, hlt, heq⟩ := h.temp_iff.1 htemp
    have := hf heq
    omega
  · exact meanings_other fun n hn => hname ⟨n, hn⟩

omit [LawfulArithmetic α] in
theorem Meant.means_unnamed {e : Expr α} (he : Unnamed (s.spare fresh) keys e) {t : String}
    (ht : sym t ∈ e.inputs) : s.means fresh keys T t = T t :=
  hm.means_other h hf fun n hn heq => he n hn (heq ▸ ht)

include hroom hk

theorem Meant.shorten {a : Assignment α} (ha : a ∈ s.all) {e : Expr α}
    (he : Abbreviates T a.rhs e) :
    Abbreviates (s.means fresh keys T) (shorten (s.table fresh keys) a).rhs e := by
  refine he.replace (fun x hx v hv => ?_) fun t ht _ =>
    hm.means_unnamed h hf (h.unnamed hroom ha) ht
  obtain ⟨n, k, hn, heq, rfl⟩ := ((hk.renames fresh).get x v).1 hv
  obtain ⟨b, hb, hkb⟩ := hk.exists_part (List.mem_of_getElem? hn)
  have hk' := (hm.abbreviates hb).subterms k (mem_subterms_of_parts hkb)
  exact abbreviates_sym (means_name hf hn) (hk'.unique (he.subterms x hx) heq)

theorem Meant.advance : Meant (s.means fresh keys T) as (s.advance fresh keys) where
  others t ht := by
    have hnot : ¬ Temp s.defs t := fun htemp => by
      obtain ⟨n, hn, rfl⟩ := h.temp_iff.1 htemp
      refine ht ((h.advance hroom hk hf).temp_iff.2 ⟨n, ?_, rfl⟩)
      rw [State.length_defs_advance]
      omega
    refine (hm.means_other h hf fun n hn heq => ht ?_).trans (hm.others t hnot)
    refine (h.advance hroom hk hf).temp_iff.2 ⟨s.defs.length + n, ?_, heq⟩
    rw [State.length_defs_advance]
    omega
  definition d hd := by
    rcases State.mem_defs_advance.1 hd with ⟨b, hb, rfl⟩ | ⟨n, k, hn, rfl⟩
    · obtain ⟨t, k, hl, hT, hk'⟩ := hm.definition b hb
      refine ⟨t, k, hl, ?_, hm.shorten h hroom hk hf (List.mem_append_left _ hb) hk'⟩
      rw [hm.means_other h hf fun n hn heq => ?_, hT]
      obtain ⟨m, hlt, hname⟩ := h.exists_name hb
      have := hf (heq.symm.trans (sym.inj (hl.symm.trans hname)))
      omega
    · -- A new definition stands for the key, which is a part of what was there before.
      have hmem := List.mem_of_getElem? hn
      obtain ⟨b, hb, hkb⟩ := hk.exists_part hmem
      have hk' := (hm.abbreviates hb).subterms k (mem_subterms_of_parts hkb)
      exact ⟨_, _, rfl, means_name hf hn,
        hk'.agree fun t => hm.means_unnamed h hf (h.key_unnamed hroom hk hmem)⟩
  assignments := by
    rw [State.advance, List.forall₂_map_right_iff]
    refine List.forall₂_iff_zip.2 ⟨hm.assignments.length_eq, fun {a b} hab => ?_⟩
    obtain ⟨heq, hvalue⟩ := (List.forall₂_iff_zip.1 hm.assignments).2 hab
    refine ⟨?_, hm.shorten h hroom hk hf (List.mem_append_right _ (List.of_mem_zip hab).2) hvalue⟩
    exact congrArg (Sharing.shorten (s.table fresh keys)) heq
  plain d hd := by
    rcases State.mem_defs_advance.1 hd with ⟨b, hb, rfl⟩ | ⟨n, k, hn, rfl⟩
    · exact hm.plain b hb
    · rfl
  origin t e ht := by
    by_cases hname : ∃ n < keys.length, t = s.spare fresh n
    · obtain ⟨n, hn, rfl⟩ := hname
      obtain ⟨k, hk'⟩ : ∃ k, keys[n]? = some k := ⟨_, List.getElem?_eq_getElem hn⟩
      rw [means_name hf hk', Option.some.injEq] at ht
      subst ht
      obtain ⟨b, hb, hkb⟩ := hk.exists_part (List.mem_of_getElem? hk')
      obtain ⟨a, ha, hsub⟩ := hm.exists_origin hb
      have hsubterm := mem_subterms_of_parts hkb
      refine ⟨a, ha, fun i hi => hsub i ?_⟩
      obtain ⟨j, hj, hij⟩ := ((hm.abbreviates hb).subterms k hsubterm).mem_inputs.1 hi
      exact (hm.abbreviates hb).mem_inputs.2 ⟨j, mem_inputs_trans hsubterm hj, hij⟩
    · rw [hm.means_other h hf fun n hn heq => hname ⟨n, hn, heq⟩] at ht
      exact hm.origin t e ht

omit hm h hroom hk in
theorem exists_meant (h : Consistent fresh top ⟨[], as⟩ weight) {n : Nat}
    (hroom : ((⟨[], as⟩ : State α).rounds fresh n).defs.length ≤ top) :
    ∃ weight, Consistent fresh top ((⟨[], as⟩ : State α).rounds fresh n) weight ∧
      ∃ T, Meant T as ((⟨[], as⟩ : State α).rounds fresh n) := by
  refine h.rounds_induct (P := fun s => ∃ T, Meant T as s) hf
    (fun s weight h hroom hne ⟨T, hm⟩ => ⟨_, hm.advance h hroom (choice_chosen hne) hf⟩)
    ⟨fun _ => none, ?_⟩ hroom
  exact {
    others := fun _ _ => rfl
    definition := fun d hd => absurd hd List.not_mem_nil
    assignments := List.forall₂_same.2 fun a ha => ⟨rfl, .refl (h.canonical a ha) fun _ _ => rfl⟩
    plain := fun d hd => absurd hd List.not_mem_nil
    origin := fun _ _ h => absurd h (by simp) }

end Stencil.Sharing
