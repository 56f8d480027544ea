import Stencil.Assignment.Basic
import Stencil.Proofs.Expr.Hereditary
import Stencil.Proofs.Expr.Shape

namespace Stencil

namespace Expr

variable {α : Type} [Arithmetic α] {s : Substitution α} {e i : Expr α}

def Inserts (s : Substitution α) : Prop :=
  ∀ k t, s.get? k = some t → k.isNumber = false ∧ t.isInput = true

theorem Inserts.keeps [LawfulArithmetic α] (hs : Inserts s) (hc : Canonical e) :
    Keeps e (replace s e) := by
  induction e using inductArgs with
  | node e ih =>
    rw [replace_eq]
    cases hget : s.get? e with
    | some t =>
      obtain ⟨hnum, hin⟩ := hs e t hget
      exact .inr ⟨hnum, .inl hin⟩
    | none =>
      by_cases hargs : e.args.isEmpty = true
      · simp only [hargs, if_true]
        exact .inl rfl
      · obtain ⟨hfits, -⟩ := fits_of_keeps hc fun a ha => ih a ha (hc.args a ha)
        refine .inr ⟨isNumber_of_isLeaf (isLeaf_of_args hargs), .inr ?_⟩
        simp only [hargs]
        exact rank_rebuild hfits

/-- Whether an expression is replaced where it occurs in another one. What lies inside of what is
replaced is not looked at. -/
inductive Hits (s : Substitution α) : Expr α → Expr α → Prop
  | here {e t} : s.get? e = some t → Hits s e e
  | inside {e a k} : s.get? e = none → a ∈ e.args → Hits s a k → Hits s e k

theorem Hits.mem_subterms {k : Expr α} (h : Hits s e k) : k ∈ e.subterms := by
  induction h with
  | here => exact mem_subterms_self _
  | inside _ ha _ ih => exact Expr.mem_subterms.2 (.inr ⟨_, ha, ih⟩)

theorem Hits.exists_get? {k : Expr α} (h : Hits s e k) : ∃ t, s.get? k = some t := by
  induction h with
  | here hget => exact ⟨_, hget⟩
  | inside _ _ _ ih => exact ih

theorem mem_inputs_replaceBy_or {build : Expr α → List (Expr α) → Expr α}
    (hbuild : ∀ e' ∈ e.subterms, ∀ a ∈ e'.args, i ∈ (replaceBy build s a).inputs →
      i ∈ (build e' (e'.args.map (replaceBy build s))).inputs) (hi : i ∈ e.inputs) :
    i ∈ (replaceBy build s e).inputs ∨ ∃ k, Hits s e k ∧ i ∈ k.inputs := by
  induction e using inductArgs with
  | node e ih =>
    rw [replaceBy_eq]
    cases hget : s.get? e with
    | some t => exact .inr ⟨e, .here hget, hi⟩
    | none =>
      by_cases hargs : e.args.isEmpty = true
      · exact .inl (by simpa only [hargs, if_true] using hi)
      · obtain ⟨a, ha, hia⟩ := (mem_inputs_iff (isInput_of_isLeaf (isLeaf_of_args hargs))).1 hi
        have hsub : ∀ k ∈ a.subterms, k ∈ e.subterms := fun k hk =>
          mem_subterms.2 (.inr ⟨a, ha, hk⟩)
        rcases ih a ha (fun e' he' => hbuild e' (hsub e' he')) hia with hia | ⟨k, hk, hik⟩
        · refine .inl ?_
          simp only [hargs]
          exact hbuild e (mem_subterms_self e) a ha hia
        · exact .inr ⟨k, .inside hget ha hk, hik⟩

theorem mem_inputs_replaceRaw_or (hi : i ∈ e.inputs) :
    i ∈ (replaceRaw s e).inputs ∨ ∃ k, Hits s e k ∧ i ∈ k.inputs := by
  refine mem_inputs_replaceBy_or (fun e' _ a ha hia => mem_inputs_args ⟨_, ?_, hia⟩) hi
  have hargs : ¬ e'.args.isEmpty = true := fun hnil =>
    List.not_mem_nil (List.isEmpty_iff.1 hnil ▸ ha)
  rw [args_rebuildRaw (isLeaf_of_args hargs) (List.length_map _)]
  exact List.mem_map_of_mem ha

section Inserts

variable [LawfulArithmetic α] (hs : Inserts s)

include hs

theorem Inserts.mem_inputs_rebuild (hc : Canonical e) {a : Expr α} (ha : a ∈ e.args)
    (hi : i ∈ (replace s a).inputs) : i ∈ (rebuild e (e.args.map (replace s))).inputs := by
  obtain ⟨hfits, -⟩ := fits_of_keeps hc fun b hb => hs.keeps (hc.args b hb)
  exact mem_inputs_rebuild_of_fits hfits (List.mem_map_of_mem ha) hi

theorem Inserts.mem_inputs_replace_or (hc : Canonical e) (hi : i ∈ e.inputs) :
    i ∈ (replace s e).inputs ∨ ∃ k, Hits s e k ∧ i ∈ k.inputs :=
  mem_inputs_replaceBy_or (fun e' he' _ => hs.mem_inputs_rebuild (hc.subterms e' he')) hi

theorem Inserts.mem_inputs_of_hits (hc : Canonical e) {k t : Expr α} (hk : Hits s e k)
    (hget : s.get? k = some t) (hi : i ∈ t.inputs) : i ∈ (replace s e).inputs := by
  induction hk with
  | here =>
    rw [replace_eq, hget]
    exact hi
  | @inside e a k hnone ha _ ih =>
    have hargs : ¬ e.args.isEmpty = true := fun hnil =>
      List.not_mem_nil (List.isEmpty_iff.1 hnil ▸ ha)
    rw [replace_eq, hnone]
    simp only [hargs]
    exact hs.mem_inputs_rebuild hc ha (ih (hc.args a ha) hget)

end Inserts

theorem mem_inputs_replaceBy_iff [LawfulArithmetic α] {build : Expr α → List (Expr α) → Expr α}
    (hbuild : build = rebuild ∨ build = rebuildRaw) (hs : Inserts s) (hc : Canonical e)
    (hvalues : ∀ k t, s.get? k = some t → i ∉ t.inputs)
    (hkeys : ∀ k, (s.get? k).isSome = true → i ∈ k.inputs → k = i) :
    i ∈ (replaceBy build s e).inputs ↔ i ∈ e.inputs ∧ s.get? i = none := by
  have hold : i ∈ (replaceBy build s e).inputs →
      i ∈ e.inputs ∧ s.get? i = none ∨ ∃ k t, s.get? k = some t ∧ i ∈ t.inputs := by
    rcases hbuild with rfl | rfl
    · exact exists_of_mem_inputs_replaceBy mem_inputs_rebuild
    · exact exists_of_mem_inputs_replaceBy mem_inputs_rebuildRaw
  have hnew : i ∈ e.inputs → i ∈ (replaceBy build s e).inputs ∨ ∃ k, Hits s e k ∧ i ∈ k.inputs := by
    rcases hbuild with rfl | rfl
    · exact hs.mem_inputs_replace_or hc
    · exact mem_inputs_replaceRaw_or
  constructor
  · exact fun hi => (hold hi).resolve_right fun ⟨k, t, hget, hit⟩ => hvalues k t hget hit
  · rintro ⟨hi, hnone⟩
    refine (hnew hi).resolve_right fun ⟨k, hk, hik⟩ => ?_
    obtain ⟨t, hget⟩ := hk.exists_get?
    rw [hkeys k (by rw [hget]; rfl) hik, hnone] at hget
    simp at hget

end Expr

open Stencil.Expr

theorem Assignment.exists_build {α : Type} [Arithmetic α] (s : Substitution α) (a : Assignment α) :
    ∃ build, (build = rebuild ∨ build = rebuildRaw) ∧ a.replace s =
      { a with lhs := a.lhs.replaceBy build s, rhs := a.rhs.replaceBy build s } := by
  unfold Assignment.replace
  split
  · rename_i hempty
    refine ⟨rebuildRaw, .inr rfl, ?_⟩
    have hnone : ∀ k, s.get? k = none := fun k => by
      obtain ⟨es⟩ := s
      obtain rfl : es = [] := List.isEmpty_iff.1 hempty
      rfl
    have hlhs := replaceRaw_of_none hnone a.lhs
    have hrhs := replaceRaw_of_none hnone a.rhs
    rw [replaceRaw] at hlhs hrhs
    rw [hlhs, hrhs]
  · split
    · exact ⟨rebuildRaw, .inr rfl, rfl⟩
    · exact ⟨rebuild, .inl rfl, rfl⟩

end Stencil
