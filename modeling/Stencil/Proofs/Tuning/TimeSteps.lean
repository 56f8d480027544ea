import Stencil.Proofs.Tuning.Windows

namespace Stencil

open Arguments (Apart)

namespace TimeLoop

variable {t : TimeLoop} {args : Arguments} {range rest : Window} {steps : Int}

theorem firstWindow?_eq (hw : args.window? t.dim = some range) (n : Int) :
    t.firstWindow? args n = if n < 0 then none else some (n + 1,
      (args.insert t.dim.lowerName (.int (t.first (n + 1) range).lo)).insert t.dim.upperName
        (.int (t.first (n + 1) range).hi)) := by
  obtain ⟨hlo, hhi⟩ := Arguments.window?_eq_some.1 hw
  simp only [firstWindow?, hlo, hhi, Option.bind_eq_bind, Option.bind_some, first]
  cases hb : t.isBackward with
  | true =>
    have hneg : range.hi < range.hi - n ↔ n < 0 := by omega
    have hlen : range.hi - (range.hi - n) + 1 = n + 1 := by omega
    have hfirst : range.hi - n = range.hi - (n + 1) + 1 := by omega
    simp only [if_true, hneg, hlen, ← hfirst]
    rfl
  | false =>
    have hneg : range.lo + n < range.lo ↔ n < 0 := by omega
    have hlen : range.lo + n - range.lo + 1 = n + 1 := by omega
    have hfirst : range.lo + n = range.lo + (n + 1) - 1 := by omega
    simp only [Bool.false_eq_true, if_false, hneg, hlen, ← hfirst]
    rfl

theorem firstWindow?_isSome {n : Int} (h : (t.firstWindow? args n).isSome) :
    ∃ range, args.window? t.dim = some range := by
  cases hw : args.window? t.dim with
  | some range => exact ⟨range, rfl⟩
  | none =>
    cases hlo : args.int? t.dim.lowerName <;> cases hhi : args.int? t.dim.upperName <;>
      simp_all [firstWindow?, Arguments.window?]

theorem fits_runtime {caller : Arguments} (hw : args.window? t.dim = some rest)
    (hc : caller.window? t.dim = some range) : t.fits args caller .runtime =
      if t.isBackward then decide (range.lo ≤ rest.lo) else decide (rest.hi ≤ range.hi) := by
  obtain ⟨hlo, hhi⟩ := Arguments.window?_eq_some.1 hw
  obtain ⟨hclo, hchi⟩ := Arguments.window?_eq_some.1 hc
  cases hb : t.isBackward <;> simp [fits, hb, hlo, hhi, hclo, hchi]

theorem window?_shiftBounds (hw : args.window? t.dim = some rest) (n : Int) :
    Arguments.window? (shiftBound (shiftBound args t.dim.lowerName n) t.dim.upperName n) t.dim =
      some ⟨rest.lo + n, rest.hi + n⟩ := by
  obtain ⟨hlo, hhi⟩ := Arguments.window?_eq_some.1 hw
  have hup : Arguments.int? (args.insert t.dim.lowerName (.int (rest.lo + n))) t.dim.upperName =
      some rest.hi := by
    rw [Arguments.int?_insert_of_ne _ _ t.dim.lowerName_ne_upperName, hhi]
  simp only [shiftBound, hlo, hup]
  exact Arguments.window?_insert_bounds args t.dim ⟨rest.lo + n, rest.hi + n⟩

theorem window?_slide (hw : args.window? t.dim = some (t.first steps rest)) :
    (t.slide args steps .runtime).window? t.dim =
      some (t.first steps (t.afterFirst steps rest)) := by
  simp only [slide, window?_shiftBounds hw]
  cases hb : t.isBackward <;> simp [first, afterFirst, hb] <;> omega

theorem complete_shiftBound {ps : List Parameter} (h : args.Complete ps) (name : String) (n : Int) :
    (shiftBound args name n).Complete ps := by
  unfold shiftBound
  split
  · exact h.insert name _
  · exact h

theorem complete_slide {ps : List Parameter} (h : args.Complete ps) (n : Int) (m : Mode) :
    (t.slide args n m).Complete ps := by
  cases m with
  | preemptive => exact h
  | runtime => exact complete_shiftBound (complete_shiftBound h _ _) _ _

theorem window?_resume {caller : Arguments} (hw : args.window? t.dim = some (t.first steps rest))
    (hc : caller.window? t.dim = some range)
    (hend : if t.isBackward then rest.lo = range.lo else rest.hi = range.hi) :
    (t.resume args caller .runtime).window? t.dim = some rest := by
  obtain ⟨hlo, hhi⟩ := Arguments.window?_eq_some.1 hw
  obtain ⟨hclo, hchi⟩ := Arguments.window?_eq_some.1 hc
  rw [Arguments.window?_eq_some]
  cases hb : t.isBackward with
  | true =>
    simp only [first, hb, if_true] at hend hhi
    simp only [resume, hb, if_true, hhi, Arguments.int?_insert_self,
      Arguments.int?_insert_of_ne _ _ t.dim.lowerName_ne_upperName.symm]
    exact ⟨hend ▸ hclo, trivial⟩
  | false =>
    simp only [first, hb, Bool.false_eq_true, if_false] at hend hlo
    simp only [resume, hb, Bool.false_eq_true, if_false, hlo, Arguments.int?_insert_self,
      Arguments.int?_insert_of_ne _ _ t.dim.lowerName_ne_upperName]
    exact ⟨trivial, hend ▸ hchi⟩

end TimeLoop

namespace Results

theorem best?_eq_none {rs : Results} (h : rs.best? = none) : rs = [] := by
  cases rs with
  | nil => rfl
  | cons r rs =>
    simp only [best?] at h
    split at h
    · simp at h
    · split at h <;> simp at h

theorem best?_mem {rs : Results} {b : TimedRun} (h : rs.best? = some b) : b ∈ rs := by
  induction rs generalizing b with
  | nil => simp [best?] at h
  | cons r rs ih =>
    simp only [best?] at h
    split at h
    · simp_all
    · rename_i c hc
      split at h
      · exact List.mem_cons_of_mem r (Option.some.inj h ▸ ih hc)
      · exact Option.some.inj h ▸ List.mem_cons_self

end Results

namespace Tuning

variable {κ : Type}

def Call.window? (k : Signature) (d : Dimension) (c : Call) : Option Window :=
  (k.named c.args).window? d

def Declares (k : Signature) (d : Dimension) : Prop :=
  d.lowerName ∈ k.parameters.map (·.name) ∧ d.upperName ∈ k.parameters.map (·.name)

theorem Call.window?_positional {k : Signature} {d : Dimension} {args : Arguments}
    (hd : Declares k d) (hc : args.Complete k.parameters) (ok : Bool) :
    Call.window? k d ⟨k.positional args, ok⟩ = args.window? d := by
  unfold Call.window? Arguments.window?
  rw [Signature.int?_named_positional hc hd.1, Signature.int?_named_positional hc hd.2]

def LeavesBounds (k : Signature) (d : Dimension) : Prop :=
  (∀ name ∈ k.tunables, Apart d name) ∧ Apart d k.profiler

instance (k : Signature) (d : Dimension) : Decidable (LeavesBounds k d) :=
  inferInstanceAs (Decidable (_ ∧ _))

theorem window?_callArguments {p : Plan κ} {d : Dimension} {b : Binding} {args : Arguments}
    (hp : Apart d p.kernel.profiler) (hb : ∀ x ∈ b, Apart d x.1) (timer : Ref Timer) :
    (p.callArguments b args timer).window? d = args.window? d := by
  rw [Plan.callArguments, Arguments.window?_insert _ _ hp, Arguments.window?_insertInts _ hb]

theorem complete_callArguments {p : Plan κ} {ps : List Parameter} {args : Arguments}
    (h : args.Complete ps) (b : Binding) (timer : Ref Timer) :
    (p.callArguments b args timer).Complete ps :=
  (h.insertInts b).insert _ _

theorem window?_bindParameters {ps : List Parameter} {caller args : Arguments} {d : Dimension}
    {w : Window} (h : bindParameters ps caller = .ok args) (hw : args.window? d = some w) :
    (d.lowerName ∈ ps.map (·.name) ∧ d.upperName ∈ ps.map (·.name)) ∧
      caller.window? d = some w := by
  obtain ⟨hlo, hhi⟩ := Arguments.window?_eq_some.1 hw
  have hmem : ∀ name v, args.int? name = some v →
      name ∈ ps.map (·.name) ∧ caller.int? name = some v := by
    intro name v hv
    rw [Arguments.int?, get?_bindParameters h] at hv
    split at hv
    · rename_i hname
      exact ⟨hname, hv⟩
    · simp at hv
  exact ⟨⟨(hmem _ _ hlo).1, (hmem _ _ hhi).1⟩,
    Arguments.window?_eq_some.2 ⟨(hmem _ _ hlo).2, (hmem _ _ hhi).2⟩⟩

end Tuning

end Stencil
