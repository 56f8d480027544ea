import Stencil.Proofs.Assignment.Reuse
import Stencil.Proofs.Assignment.Round
import Stencil.Proofs.Pass.Scheduled

namespace Stencil.Sharing

open Stencil.Expr Stencil.Flow Schedule

variable {α : Type} [AlgebraicField α] [Arithmetic α] [Exact α] {g : Supply}
  {as : List (Assignment α)}

omit [AlgebraicField α] [Exact α] in
theorem Consistent.within {s : State α} {weight : String → Nat}
    (h : Consistent g.name (g.top - g.next) s weight) (hu : ∀ a ∈ s.all, Unary a.rhs)
    {a : Assignment α} (ha : a ∈ s.all) : Within (g.skip s.defs.length).known a.rhs where
  unary := hu a ha
  inputs i hi n hn heq := by
    rw [g.name_skip] at heq
    rw [Supply.room_skip, Supply.Room] at hn
    exact h.spare a ha (s.defs.length + n) (by omega) (Nat.le_add_right _ _) (heq ▸ hi)

theorem sound_eliminated (ht : ∀ a ∈ as, Tidy g a)
    (hroom : g.Room (eliminated g.name as).defs.length) :
    ∃ T weight, Consistent g.name (g.top - g.next) (eliminated g.name as) weight ∧
      Meant T (reuse as) (eliminated g.name as) ∧
      Outlined g (reuse as) (eliminated g.name as).assignments (eliminated g.name as).defs
        (meaning T) weight := by
  have htidy := (reuse_refines ht).tidy
  have hf : Function.Injective g.name := fun _ _ h => g.name_injective h
  have hspare : ∀ a ∈ reuse as, ∀ n < g.top - g.next, sym (g.name n) ∉ a.rhs.inputs := by
    refine fun a ha n hn hi => (htidy a ha).within.inputs _ hi n ?_ rfl
    rw [Supply.Room]
    omega
  obtain ⟨n, hn⟩ := exists_rounds g.name as
  have hstart : Consistent g.name (g.top - g.next) ⟨[], reuse as⟩ fun _ => 0 :=
    consistent_start (fun a ha => (htidy a ha).canonical) hspare
  obtain ⟨weight, h, T, hm⟩ := exists_meant hf hstart
    (n := n) (by rw [← hn]; unfold Supply.Room at hroom; omega)
  rw [← hn] at h hm
  have hfresh : ∀ t, Temp (eliminated g.name as).defs t → (sym t : Expr α) ∉ g.known := by
    intro t htemp hmem
    obtain ⟨m, hm, rfl⟩ := h.temp_iff.1 htemp
    exact hmem m (hroom.anti hm) rfl
  refine ⟨T, weight, h, hm, hm.outlined (h.orderly hf fun a ha t htemp hl => ?_) hm.origin hfresh⟩
  obtain ⟨b, hb, heq, -⟩ := forall₂_mem_right hm.assignments a ha
  rw [heq] at hl
  exact hfresh t htemp (hl ▸ (htidy b hb).target)

theorem eliminate_refines (ht : ∀ a ∈ as, Tidy g a)
    (hroom : g.Room (eliminated g.name as).defs.length) :
    Refines g (g.skip (eliminated g.name as).defs.length) as (eliminate g.name as) := by
  have hreuse := reuse_refines ht
  obtain ⟨T, weight, h, hm, houtlined⟩ := sound_eliminated ht hroom
  have hunary : ∀ a ∈ (eliminated g.name as).all, Unary a.rhs := by
    obtain ⟨n, hn⟩ := exists_rounds g.name as
    rw [hn]
    exact fun a ha => (State.forall_rounds (s := ⟨[], reuse as⟩) (hereditary_within Set.univ)
      (fun t => within_of_isInput rfl trivial)
      (fun b hb => ⟨(hreuse.tidy b hb).within.unary, fun _ _ => trivial⟩) n a ha).unary
  refine hreuse.trans (houtlined.refines hreuse.tidy (g.known_skip _) (fun a ha => ?_)
    (fun d hd => ?_) (hm.values hm.plain houtlined.fresh))
  · obtain ⟨b, hb, heq, hvalue⟩ := forall₂_mem_right hm.assignments a ha
    refine ⟨hvalue.canonical, h.within hunary (List.mem_append_right _ ha), ?_,
      houtlined.pure (fun b hb => (hreuse.tidy b hb).pure) a ha⟩
    rw [heq]
    exact g.known_skip _ (hreuse.tidy b hb).target
  · obtain ⟨n, hn, hl⟩ := h.exists_name hd
    have hall := List.mem_append_left (eliminated g.name as).assignments hd
    exact ⟨h.canonical d hall, h.within hunary hall, hl ▸ Supply.name_mem_known hn,
      pureIncrement_of_plain (hm.plain d hd)⟩

end Stencil.Sharing
