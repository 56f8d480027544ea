import Stencil.Tuning.Session

/-!
What happens to storage. Cells are never removed, so a reference that leads to a cell leads there
for good; `Keeps` says that the cells of one moment still hold at a later one what they held.
-/

namespace Stencil

namespace Cells

variable {β : Type} {c c' c'' : Cells β}

def Keeps (c c' : Cells β) : Prop := ∀ r v, c.get? r = some v → c'.get? r = some v

theorem Keeps.refl (c : Cells β) : c.Keeps c := fun _ _ h => h

theorem Keeps.trans (h : c.Keeps c') (h' : c'.Keeps c'') : c.Keeps c'' :=
  fun r v hv => h' r v (h r v hv)

theorem get?_new_self (c : Cells β) (v : β) : c.get? (c.new v).1 = none := by
  simp [new, get?]

theorem keeps_new (c : Cells β) (v : β) : c.Keeps (c.new v).2 := by
  intro r w hw
  rw [get?_new]
  split
  · rename_i hr
    rw [← hr, get?_new_self] at hw
    simp at hw
  · exact hw

theorem Keeps.get?_new_eq_none (h : c.Keeps c') (v : β) : c.get? (c'.new v).1 = none := by
  cases hc : c.get? (c'.new v).1 with
  | none => rfl
  | some w =>
    have := h _ w hc
    rw [get?_new_self] at this
    simp at this

theorem get?_update_self (c : Cells β) (r : Ref β) (f : β → β) :
    (c.update r f).get? r = (c.get? r).map f := by
  simp [get?_update]

theorem get?_update_of_ne (c : Cells β) {r s : Ref β} (f : β → β) (h : r ≠ s) :
    (c.update r f).get? s = c.get? s := by
  simp [get?_update, h]

end Cells

namespace Store

structure Keeps (s s' : Store) : Prop where
  buffers : s.buffers.Keeps s'.buffers
  timers : s.timers.Keeps s'.timers
  neighbours : s.neighbours.Keeps s'.neighbours
  messages : s.messages.Keeps s'.messages

theorem Keeps.refl (s : Store) : s.Keeps s := ⟨.refl _, .refl _, .refl _, .refl _⟩

end Store

end Stencil
