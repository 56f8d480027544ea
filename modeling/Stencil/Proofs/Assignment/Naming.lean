import Stencil.Proofs.Assignment.Rounds
import Stencil.Proofs.Assignment.Extraction
import Stencil.Proofs.Pass.Increments

namespace Stencil

open Stencil.Expr

variable {α : Type}

structure Adds (g : Names) (as as' ds : List (Assignment α)) : Prop where
  named : ds.map (·.lhs) = (List.range ds.length).map fun n => sym (g.name n)
  subset : ds ⊆ as'
  rest : ∀ a ∈ as', a ∈ ds ∨ ∃ b ∈ as, a.lhs = b.lhs
  kept : ∀ a ∈ as, ∃ b ∈ as', b.lhs = a.lhs

variable {g : Names} {as as' ds : List (Assignment α)}

theorem adds_map (f : Assignment α → Assignment α) (hf : ∀ a, (f a).lhs = a.lhs) :
    Adds g as (as.map f) [] where
  named := rfl
  subset := List.nil_subset _
  rest a ha := by
    obtain ⟨b, hb, rfl⟩ := List.mem_map.1 ha
    exact .inr ⟨b, hb, hf b⟩
  kept a ha := ⟨f a, List.mem_map_of_mem ha, hf a⟩

theorem schedule_perm_of_named (exprs : List (Assignment α))
    (hnamed : ds.map (·.lhs) = (List.range ds.length).map fun n => sym (g.name n)) :
    (Schedule.schedule ds exprs).Perm (exprs ++ ds) := by
  apply Schedule.schedule_perm
  · intro d hd
    have hl : d.lhs ∈ (List.range ds.length).map fun n => (sym (g.name n) : Expr α) :=
      hnamed ▸ List.mem_map_of_mem hd
    obtain ⟨n, -, hn⟩ := List.mem_map.1 hl
    rw [← hn]
    rfl
  · rw [hnamed]
    exact List.nodup_range.map fun m n h => g.name_injective (sym.inj h)

theorem adds_schedule {exprs : List (Assignment α)}
    (hnamed : ds.map (·.lhs) = (List.range ds.length).map fun n => sym (g.name n))
    (hexprs : exprs.map (·.lhs) = as.map (·.lhs)) : Adds g as (Schedule.schedule ds exprs) ds := by
  have hperm := schedule_perm_of_named exprs hnamed
  constructor
  · exact hnamed
  · exact fun d hd => hperm.symm.subset (List.mem_append_right exprs hd)
  · intro a ha
    rcases List.mem_append.1 (hperm.subset ha) with ha | ha
    · have hl : a.lhs ∈ as.map (·.lhs) := hexprs ▸ List.mem_map_of_mem ha
      obtain ⟨b, hb, hl⟩ := List.mem_map.1 hl
      exact .inr ⟨b, hb, hl.symm⟩
    · exact .inl ha
  · intro a ha
    have hl : a.lhs ∈ exprs.map (·.lhs) := hexprs ▸ List.mem_map_of_mem ha
    obtain ⟨b, hb, hl⟩ := List.mem_map.1 hl
    exact ⟨b, hperm.symm.subset (List.mem_append_left ds hb), hl⟩

section Monad

variable {σ β γ : Type}

def Maintains (I : σ → Prop) (x : StateM σ β) : Prop := ∀ s, I s → I (x.run s).2

variable {I : σ → Prop}

theorem Maintains.pure (b : β) : Maintains I (Pure.pure b : StateM σ β) := fun _ => id

theorem Maintains.bind {x : StateM σ β} {f : β → StateM σ γ} (hx : Maintains I x)
    (hf : ∀ b, Maintains I (f b)) : Maintains I (x >>= f) :=
  fun s hs => hf _ _ (hx s hs)

theorem Maintains.mapM {f : β → StateM σ γ} {bs : List β} (hf : ∀ b ∈ bs, Maintains I (f b)) :
    Maintains I (bs.mapM f) := by
  induction bs with
  | nil => exact .pure []
  | cons b bs ih =>
    rw [List.mapM_cons]
    apply (hf b List.mem_cons_self).bind
    intro c
    apply (ih fun b' hb' => hf b' (List.mem_cons_of_mem b hb')).bind
    exact fun cs => .pure (c :: cs)

theorem map_run_mapM {δ : Type} {f : β → StateM σ γ} {u : β → δ} {v : γ → δ}
    (h : ∀ b s, v ((f b).run s).1 = u b) (bs : List β) (s : σ) :
    ((bs.mapM f).run s).1.map v = bs.map u := by
  induction bs generalizing s with
  | nil => rfl
  | cons b bs ih =>
    rw [List.mapM_cons, List.map_cons, ← h b s, ← ih ((f b).run s).2]
    rfl

end Monad

variable [Arithmetic α]

namespace Extraction

variable {p : Policy α} {root : Bool} {e : Expr α}

theorem extract_numbered (e : Expr α) : Maintains (Numbered g.name) (extract g.name e) := by
  intro F hF
  cases hget : F.get? e with
  | some t =>
    rw [run_extract_of_some hget]
    exact hF
  | none =>
    rw [run_extract_of_none hget]
    exact hF.insert hget

theorem extractIf_numbered (e : Expr α) : Maintains (Numbered g.name) (extractIf p g.name e) := by
  unfold extractIf
  split
  · exact extract_numbered e
  · exact .pure e

theorem growOrExtract_numbered : Maintains (Numbered g.name) (growOrExtract p g.name root e) := by
  unfold growOrExtract
  split
  · exact (extract_numbered e).bind fun t => .pure (t, false)
  · exact .pure (e, true)

theorem splitOperands_numbered (parts : List (Part α)) :
    Maintains (Numbered g.name) (splitOperands p g.name e parts) := by
  unfold splitOperands
  dsimp only
  split
  · exact (extract_numbered _).bind fun t => .pure _
  · exact (Maintains.mapM fun a _ => extractIf_numbered a).bind fun ts => .pure _

theorem extractOperands_numbered (parts : List (Part α)) :
    Maintains (Numbered g.name) (extractOperands p g.name e parts) := by
  unfold extractOperands
  refine (Maintains.mapM fun x _ => ?_).bind fun ts => .pure _
  split
  · exact extractIf_numbered x.1
  · exact .pure x.1

theorem node_numbered (parts : List (Part α)) :
    Maintains (Numbered g.name) (node p g.name root e parts) := by
  unfold node
  split
  · exact .pure _
  · dsimp only
    split
    · exact growOrExtract_numbered
    · split
      · exact (splitOperands_numbered parts).bind fun e' => .pure _
      · exact (splitOperands_numbered parts).bind fun e' => .pure _
      · exact (extractOperands_numbered parts).bind fun e' => .pure _

theorem run_numbered (e : Expr α) : Maintains (Numbered g.name) (run p g.name e) := by
  induction e using inductArgs with
  | node e ih =>
    rw [run_eq]
    exact (Maintains.mapM ih).bind node_numbered

theorem runRoot_numbered (e : Expr α) : Maintains (Numbered g.name) (runRoot p g.name e) :=
  ((Maintains.mapM fun a _ => run_numbered a).bind node_numbered).bind fun x => .pure x.1

theorem adds_apply (p : Policy α) (g : Names) (as : List (Assignment α)) :
    Adds g as (apply p g.name as).assignments (apply p g.name as).found := by
  rw [apply_eq]
  have hF : Numbered g.name ((extractAll p g.name as).run .empty).2 :=
    Maintains.mapM (fun a _ => (runRoot_numbered a.rhs).bind fun e => .pure _) _ rfl
  apply adds_schedule
  · rw [Found.defs, List.map_map, List.length_map]
    exact hF
  · exact map_run_mapM (fun _ _ => rfl) as (.empty : Found α)

end Extraction

namespace Sharing

theorem map_lhs_shorten (t : Substitution α) (as : List (Assignment α)) :
    (as.map (shorten t)).map (·.lhs) = as.map (·.lhs) := by
  rw [List.map_map]
  rfl

structure Numbered (g : Names) (as : List (Assignment α)) (s : State α) : Prop where
  named : s.defs.map (·.lhs) = (List.range s.defs.length).map fun n => sym (g.name n)
  targets : s.assignments.map (·.lhs) = as.map (·.lhs)

theorem Numbered.round {s s' : State α} (h : Numbered g as s) (hr : s.round? g.name = some s') :
    Numbered g as s' := by
  obtain ⟨-, rfl⟩ := State.round?_eq_some.1 hr
  constructor
  · exact State.map_lhs_advance h.named
  · rw [State.advance, map_lhs_shorten, h.targets]

theorem numbered_eliminated (g : Names) (as : List (Assignment α)) :
    Numbered g as (eliminated g.name as) := by
  obtain ⟨n, hn⟩ := exists_rounds g.name as
  rw [hn]
  exact State.rounds_induct (fun _ _ h => h.round) ⟨rfl, map_lhs_reuse as⟩ n

theorem adds_eliminate (g : Names) (as : List (Assignment α)) :
    Adds g as (eliminate g.name as) (eliminated g.name as).defs :=
  adds_schedule (numbered_eliminated g as).named (numbered_eliminated g as).targets

end Sharing

namespace ScalarPass

theorem adds_splitIncrements (g : Names) (as : List (Assignment α)) :
    ∃ ds, ds.length = splitCount as ∧ Adds g as (splitIncrements g as).1 ds := by
  induction as generalizing g with
  | nil =>
    refine ⟨[], rfl, rfl, List.nil_subset _, fun a ha => ?_, fun a ha => ?_⟩
    · exact absurd ha List.not_mem_nil
    · exact absurd ha List.not_mem_nil
  | cons a as ih =>
    rw [splitIncrements]
    split
    · rename_i hif
      obtain ⟨ds, hlen, h⟩ := ih (g.skip 1)
      refine ⟨{ lhs := sym (g.name 0), rhs := a.addition } :: ds, ?_, ?_, ?_, ?_, ?_⟩
      · rw [splitCount_split hif, List.length_cons, hlen, Nat.add_comm]
      · rw [List.length_cons, Nat.add_comm, g.map_range_add sym, List.map_cons, h.named]
        rfl
      · exact List.cons_subset_cons _ (List.subset_cons_of_subset _ h.subset)
      · intro b hb
        rcases List.mem_cons.1 hb with rfl | hb
        · exact .inl List.mem_cons_self
        · rcases List.mem_cons.1 hb with rfl | hb
          · exact .inr ⟨a, List.mem_cons_self, rfl⟩
          · rcases h.rest b hb with hd | ⟨c, hc, hl⟩
            · exact .inl (List.mem_cons_of_mem _ hd)
            · exact .inr ⟨c, List.mem_cons_of_mem a hc, hl⟩
      · intro b hb
        rcases List.mem_cons.1 hb with rfl | hb
        · exact ⟨_, List.mem_cons_of_mem _ List.mem_cons_self, rfl⟩
        · obtain ⟨c, hc, hl⟩ := h.kept b hb
          exact ⟨c, List.mem_cons_of_mem _ (List.mem_cons_of_mem _ hc), hl⟩
    · rename_i hif
      obtain ⟨ds, hlen, h⟩ := ih g
      refine ⟨ds, ?_, h.named, List.subset_cons_of_subset _ h.subset, ?_, ?_⟩
      · rw [splitCount_other hif, hlen]
      · intro b hb
        rcases List.mem_cons.1 hb with rfl | hb
        · exact .inr ⟨b, List.mem_cons_self, rfl⟩
        · rcases h.rest b hb with hd | ⟨c, hc, hl⟩
          · exact .inl hd
          · exact .inr ⟨c, List.mem_cons_of_mem a hc, hl⟩
      · intro b hb
        rcases List.mem_cons.1 hb with rfl | hb
        · exact ⟨b, List.mem_cons_self, rfl⟩
        · obtain ⟨c, hc, hl⟩ := h.kept b hb
          exact ⟨c, List.mem_cons_of_mem a hc, hl⟩

end ScalarPass

end Stencil
