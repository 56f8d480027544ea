import Stencil.Proofs.Execution.Point
import Stencil.Proofs.Execution.Tour
import Stencil.Proofs.Expr.Displacement

namespace Stencil

open Stencil.Expr

theorem Env.resolve_map {β : Type} {env env' : Env β} {f : Index → Index} {is : List Index}
    (h : ∀ i ∈ is, env.resolveIndex (f i) = env'.resolveIndex i) :
    env.resolve (is.map f) = env'.resolve is := by
  unfold resolve
  induction is with
  | nil => rfl
  | cons i is ih =>
    obtain ⟨hi, his⟩ := List.forall_mem_cons.1 h
    rw [List.map_cons, List.mapM_cons, List.mapM_cons, hi, ih his]

namespace Access

variable {pos pos' : Position}

theorem place_displace {s : Shift} {x : Access}
    (h : ∀ d ∈ x.dimensions, pos'.get? d.name = (pos.get? d.name).map (· + s d)) :
    (x.displace s).place pos = x.place pos' := by
  refine Env.resolve_map fun i hi => ?_
  cases i with
  | const c => rfl
  | affine d o =>
    have hd := h d (List.mem_filterMap.2 ⟨_, hi, rfl⟩)
    simp only [Index.displace, Env.resolveIndex, hd]
    cases pos.get? d.name with
    | none => rfl
    | some w => exact congrArg Except.ok (show w + (o + s d) = w + s d + o by omega)

theorem place_affine {is : List Interval} {ws : List Int} (f : Field) (o : Interval → Int)
    (h : List.Forall₂ (fun i w => pos.get? i.dim.name = some w) is ws) :
    (⟨f, is.map fun i => .affine i.dim (o i)⟩ : Access).place pos =
      .ok (List.zipWith (fun i w => w + o i) is ws) := by
  simp only [place, Env.resolve]
  induction h with
  | nil => rfl
  | cons hi _ ih =>
    simp only [List.map_cons, List.mapM_cons, Env.resolveIndex, hi, ih]
    rfl

end Access

namespace Nest

variable {ds : List Dimension} {ws : List Int} {d : Dimension} {s : Shift}

def move (s : Shift) (ds : List Dimension) (ws : List Int) : List Int :=
  List.zipWith (fun d w => w + s d) ds ws

theorem length_move (hlen : ds.length = ws.length) : ds.length = (move s ds ws).length := by
  rw [move, List.length_zipWith, hlen, min_self]

theorem get?_stand_of_not_mem {n : String} (hn : n ∉ ds.map Dimension.name) :
    (stand ds ws).get? n = none := by
  refine Table.get?_eq_none.2 fun hmem => hn ?_
  obtain ⟨x, hx, rfl⟩ := List.mem_map.1 hmem
  exact (List.of_mem_zip (a := x.1) (b := x.2) hx).1

theorem get?_stand (hn : (ds.map Dimension.name).Nodup) (hlen : ds.length = ws.length) {k : Nat}
    (hk : k < ds.length) : (stand ds ws).get? ds[k].name = some ws[k] := by
  refine Table.get?_eq_some_of_mem ?_ ?_
  · rw [Table.keys, stand, List.map_fst_zip (by simp [hlen])]
    exact hn
  · have hzip : k < ((ds.map Dimension.name).zip ws).length := by simp [← hlen, hk]
    have hget : ((ds.map Dimension.name).zip ws)[k] = (ds[k].name, ws[k]) := by simp
    exact hget ▸ List.getElem_mem hzip

theorem forall₂_stand (hn : (ds.map Dimension.name).Nodup) (hlen : ds.length = ws.length) :
    List.Forall₂ (fun d w => (stand ds ws).get? d.name = some w) ds ws :=
  List.forall₂_iff_get.2 ⟨hlen, fun _ hk _ => get?_stand hn hlen hk⟩

theorem get?_stand_move (hn : (ds.map Dimension.name).Nodup) (hlen : ds.length = ws.length)
    (s : Shift) (hd : d ∈ ds) :
    (stand ds (move s ds ws)).get? d.name = ((stand ds ws).get? d.name).map (· + s d) := by
  obtain ⟨k, hk, rfl⟩ := List.mem_iff_getElem.1 hd
  rw [get?_stand hn hlen hk, get?_stand hn (length_move hlen) hk]
  simp [move]

end Nest

namespace Exec

open Nest

variable {α : Type} [AlgebraicField α] [Arithmetic α] [Exact α] {ds : List Dimension}
  {ws : List Int} {s : Shift} {g : Grid α} {e : Expr α} {v : α}

section Move

variable (hn : (ds.map Dimension.name).Nodup) (hlen : ds.length = ws.length)
  (hdims : ∀ d ∈ e.dimensions, d ∈ ds) (hsym : ∀ d ∈ ds, s d ≠ 0 → sym d.name ∉ e.inputs)

include hn hlen hdims hsym

omit [AlgebraicField α] [Exact α] in
theorem eval_move_input {i : Expr α} (hi : i ∈ e.inputs) :
    (i.displace s).eval (env g (stand ds ws) .empty) =
      i.eval (env g (stand ds (move s ds ws)) .empty) := by
  have hin := (mem_inputs.1 hi).2
  cases i with
  | sym n =>
    have hstand : (stand ds (move s ds ws)).get? n = (stand ds ws).get? n := by
      by_cases hmem : n ∈ ds.map Dimension.name
      · obtain ⟨d, hd, rfl⟩ := List.mem_map.1 hmem
        have hzero : s d = 0 := by
          by_contra hne
          exact hsym d hd hne hi
        rw [get?_stand_move hn hlen s hd, hzero]
        cases (stand ds ws).get? d.name <;> simp
      · rw [get?_stand_of_not_mem hmem, get?_stand_of_not_mem hmem]
    have hself : (sym n : Expr α).displace s = sym n := rfl
    simp only [hself, eval, env, hstand]
  | access x =>
    have hplace := Access.place_displace (s := s) (x := x) fun d hd =>
      get?_stand_move hn hlen s (hdims d (mem_dimensions.2 ⟨x, hi, hd⟩))
    rw [displace_access, eval, eval, resolve_env, resolve_env, hplace]
    rfl
  | _ => simp [isInput, isSymbol, isAccess] at hin

theorem eval_move (hc : Canonical e) (hu : Unary e)
    (h : (e.displace s).eval (env g (stand ds ws) .empty) = .ok v) :
    e.eval (env g (stand ds (move s ds ws)) .empty) = .ok v :=
  eval_displace hc hu (fun _ hi => eval_move_input hn hlen hdims hsym hi) h

end Move

end Exec

end Stencil
