import Stencil.Proofs.Tuning.Storage

/-!
Switching the halo exchange off and on again. Ranks are saved and overwritten one handle after
another and written back in the same order, so a handle that stands once gets its ranks back, and
one that stands more often gets back what the first visit left there: the null rank.
-/

namespace Stencil

namespace Table

variable {κ ν : Type} [BEq κ] [LawfulBEq κ]

def overwrite (t : Table κ ν) (es : List (κ × ν)) : Table κ ν :=
  es.foldl (fun t x => if t.contains x.1 then t.insert x.1 x.2 else t) t

theorem put_append_cons {k : κ} (v w : ν) {es : List (κ × ν)} (r : List (κ × ν))
    (h : k ∉ es.map (·.1)) : put k v (es ++ (k, w) :: r) = es ++ (k, v) :: r := by
  induction es with
  | nil => simp [put]
  | cons e es ih =>
    simp only [List.map_cons, List.mem_cons, not_or] at h
    simp [put, Ne.symm h.1, ih h.2]

theorem overwrite_append {done old new : List (κ × ν)} (hkeys : old.map (·.1) = new.map (·.1))
    (hnodup : ((done ++ old).map (·.1)).Nodup) :
    overwrite ⟨done ++ old⟩ new = ⟨done ++ new⟩ := by
  induction new generalizing done old with
  | nil => simp_all [overwrite]
  | cons x new ih =>
    obtain ⟨k, v⟩ := x
    cases old with
    | nil => simp at hkeys
    | cons y old =>
      obtain ⟨k', w⟩ := y
      simp only [List.map_cons, List.cons.injEq] at hkeys
      obtain ⟨rfl, hkeys⟩ := hkeys
      have hk : k' ∉ done.map (·.1) := by
        intro hk
        rw [List.map_append, List.nodup_append] at hnodup
        exact hnodup.2.2 k' hk k' (by simp) rfl
      have hcontains : contains (⟨done ++ (k', w) :: old⟩ : Table κ ν) k' = true := by
        cases hget : get? (⟨done ++ (k', w) :: old⟩ : Table κ ν) k' with
        | none => exact absurd hget (by simp [get?_eq_none, keys])
        | some _ => simp [contains, hget]
      have hput : insert (⟨done ++ (k', w) :: old⟩ : Table κ ν) k' v =
          ⟨(done ++ [(k', v)]) ++ old⟩ := by
        simp [insert, put_append_cons v w old hk]
      have hstep : overwrite (⟨done ++ (k', w) :: old⟩ : Table κ ν) ((k', v) :: new) =
          overwrite ⟨(done ++ [(k', v)]) ++ old⟩ new := by
        simp only [overwrite, List.foldl_cons, hcontains, if_true, hput]
      rw [hstep, ih hkeys (by simpa using hnodup)]
      simp

theorem overwrite_eq {t u : Table κ ν} (hkeys : t.keys = u.keys) (hnodup : t.keys.Nodup) :
    t.overwrite u.entries = u := by
  have h : overwrite ⟨[] ++ t.entries⟩ u.entries = ⟨[] ++ u.entries⟩ :=
    overwrite_append hkeys hnodup
  exact h

end Table

namespace Neighbours

def silenced (t : Neighbours) : Neighbours := t.mapValues fun _ => nullRank

@[simp] theorem keys_silenced (t : Neighbours) : t.silenced.keys = t.keys := by
  simp [silenced, Table.keys, Table.mapValues]

@[simp] theorem silenced_silenced (t : Neighbours) : t.silenced.silenced = t.silenced := by
  simp [silenced, Table.mapValues]

theorem silenced_eq_self_iff {t : Neighbours} :
    t.silenced = t ↔ ∀ rank ∈ t.values, rank = nullRank := by
  obtain ⟨es⟩ := t
  simp only [silenced, Table.mapValues, Table.values, Table.mk.injEq, List.forall_mem_map]
  constructor
  · intro h x hx
    rw [← h] at hx
    obtain ⟨y, _, rfl⟩ := List.mem_map.1 hx
    rfl
  · intro h
    refine (List.map_congr_left fun x hx => ?_).trans (List.map_id es)
    exact Prod.ext rfl (h x hx).symm

end Neighbours

def Store.WellKeyed (s : Store) : Prop := ∀ r t, s.neighbours.get? r = some t → t.keys.Nodup

namespace SavedRanks

section Cells

variable {β : Type} {off : β → β} {c c' : Cells β} {rs : List (Ref β)}
  {saved : List (Ref β × β)}

def snapshots (saved : List (Ref β × β)) (r : Ref β) : List β :=
  (saved.filter (·.1 = r)).map (·.2)

theorem snapshots_snoc (saved : List (Ref β × β)) (r s : Ref β) (v : β) :
    snapshots (saved ++ [(r, v)]) s = snapshots saved s ++ if r = s then [v] else [] := by
  by_cases h : r = s <;> simp [snapshots, h]

def taken (off : β → β) (v : β) : Nat → List β
  | 0 => []
  | n + 1 => v :: List.replicate n (off v)

theorem taken_succ (off : β → β) (v : β) (n : Nat) :
    taken off v (n + 1) = taken off v n ++ [if n = 0 then v else off v] := by
  cases n with
  | zero => rfl
  | succ n => simp [taken, List.replicate_succ']

structure Saving (off : β → β) (c : Cells β) (rs : List (Ref β)) (saved : List (Ref β × β))
    (c' : Cells β) : Prop where
  current : ∀ r, c'.get? r = if r ∈ rs then (c.get? r).map off else c.get? r
  snapshots : ∀ r v, c.get? r = some v → snapshots saved r = taken off v (rs.count r)

theorem saving_nil (off : β → β) (c : Cells β) : Saving off c [] [] c where
  current := by simp
  snapshots := by simp [SavedRanks.snapshots, taken]

theorem Saving.get? (h : Saving off c rs saved c') {r : Ref β} {v : β} (hv : c.get? r = some v) :
    c'.get? r = some (if rs.count r = 0 then v else off v) := by
  rw [h.current, hv]
  by_cases hr : r ∈ rs
  · simp [hr, List.count_eq_zero]
  · simp [hr, List.count_eq_zero]

theorem Saving.snoc {c'' : Cells β} {saved' : List (Ref β × β)} {r : Ref β}
    (h : Saving off c rs saved c') (hoff : ∀ v, off (off v) = off v)
    (hself : c''.get? r = (c'.get? r).map off) (hother : ∀ s, r ≠ s → c''.get? s = c'.get? s)
    (hsaved : ∀ v, c'.get? r = some v → saved' = saved ++ [(r, v)])
    (hkept : ∀ s, r ≠ s → SavedRanks.snapshots saved' s = SavedRanks.snapshots saved s) :
    Saving off c (rs ++ [r]) saved' c'' where
  current s := by
    by_cases hs : r = s
    · subst hs
      rw [hself, h.current]
      split <;> simp [Function.comp_def, hoff]
    · rw [hother s hs, h.current]
      simp [Ne.symm hs]
  snapshots s v hv := by
    by_cases hs : r = s
    · subst hs
      rw [hsaved _ (h.get? hv), snapshots_snoc, h.snapshots r v hv]
      simp [taken_succ]
    · rw [hkept s hs, h.snapshots s v hv]
      simp [hs]

variable (write : β → β → β)

theorem get?_foldl_update (saved : List (Ref β × β)) (c : Cells β) (r : Ref β) :
    (saved.foldl (fun c x => c.update x.1 (write · x.2)) c).get? r =
      (c.get? r).map fun v => (snapshots saved r).foldl write v := by
  induction saved generalizing c with
  | nil => simp [snapshots]
  | cons x saved ih =>
    rw [List.foldl_cons, ih, Cells.get?_update]
    by_cases h : x.1 = r <;> simp [snapshots, h, Function.comp_def]

theorem Saving.restored {d : Cells β} (h : Saving off c rs saved c') (hd : c'.Keeps d) {r : Ref β}
    {v : β} (hv : c.get? r = some v) (hwrite : ∀ a ∈ [v, off v], ∀ b ∈ [v, off v], write a b = b) :
    (saved.foldl (fun c x => c.update x.1 (write · x.2)) d).get? r =
      some (if rs.count r ≤ 1 then v else off v) := by
  have hall : ∀ n a, a ∈ [v, off v] →
      (List.replicate n (off v)).foldl write a = if n = 0 then a else off v := by
    intro n
    induction n with
    | zero => simp
    | succ n ih =>
      intro a ha
      rw [List.replicate_succ, List.foldl_cons, hwrite a ha _ (by simp), ih _ (by simp)]
      simp
  rw [get?_foldl_update, hd r _ (h.get? hv), h.snapshots r v hv]
  cases rs.count r with
  | zero => simp [taken]
  | succ n =>
    simp only [Option.map_some, taken, List.foldl_cons, Nat.succ_ne_zero, if_false,
      hwrite (off v) (by simp) v (by simp), hall n v (by simp)]
    cases n <;> simp

end Cells

def routedNeighbours (ps : List Parameter) (args : Arguments) : List (Ref Neighbours) :=
  ps.flatMap fun p =>
    match p.kind, args.get? p.name with
    | .neighbours, some (.neighbours r) => [r]
    | _, _ => []

def routedMessages (ps : List Parameter) (args : Arguments) : List (Ref Ranks) :=
  ps.flatMap fun p =>
    match p.kind, args.get? p.name with
    | .messages, some (.messages rs) => rs
    | _, _ => []

def nowhere : Ranks := ⟨nullRank, nullRank⟩

structure SwitchedOff (s : Store) (ts : List (Ref Neighbours)) (ms : List (Ref Ranks))
    (saved : SavedRanks) (s' : Store) : Prop where
  neighbours : Saving Neighbours.silenced s.neighbours ts saved.neighbours s'.neighbours
  messages : Saving (fun _ => nowhere) s.messages ms saved.messages s'.messages

theorem setNeighbours_eq (r : Ref Neighbours) (es : List (String × Int)) (s : Store) :
    es.foldl (fun s x => s.setNeighbour r x.1 x.2) s =
      { s with neighbours := s.neighbours.update r (·.overwrite es) } := by
  induction es generalizing s with
  | nil =>
    have hid : s.neighbours.update r (·.overwrite []) = s.neighbours := by
      simp only [Cells.update, Table.overwrite, List.foldl_nil]
      exact congrArg Cells.mk (List.modify_id _ _)
    rw [List.foldl_nil, hid]
  | cons x es ih =>
    rw [List.foldl_cons, ih]
    simp only [Store.setNeighbour, Cells.update, List.modify_modify_eq]
    rfl

def rewriteNeighbours (xs : List (Ref Neighbours × Neighbours)) (c : Cells Neighbours) :
    Cells Neighbours :=
  xs.foldl (fun c x => c.update x.1 fun t => t.overwrite x.2.entries) c

def rewriteMessages (xs : List (Ref Ranks × Ranks)) (c : Cells Ranks) : Cells Ranks :=
  xs.foldl (fun c x => c.update x.1 fun _ => x.2) c

theorem restore_eq (saved : SavedRanks) (s : Store) : saved.restore s =
    { s with
      neighbours := rewriteNeighbours saved.neighbours s.neighbours
      messages := rewriteMessages saved.messages s.messages } := by
  have hneighbours : ∀ (xs : List (Ref Neighbours × Neighbours)) (s : Store),
      xs.foldl (fun s x => x.2.entries.foldl (fun s y => s.setNeighbour x.1 y.1 y.2) s) s =
        { s with neighbours := rewriteNeighbours xs s.neighbours } := by
    intro xs
    induction xs with
    | nil => exact fun _ => rfl
    | cons x xs ih => exact fun s => by rw [List.foldl_cons, setNeighbours_eq, ih]; rfl
  have hmessages : ∀ (xs : List (Ref Ranks × Ranks)) (s : Store),
      xs.foldl (fun s x => s.setRanks x.1 x.2) s =
        { s with messages := rewriteMessages xs s.messages } := by
    intro xs
    induction xs with
    | nil => exact fun _ => rfl
    | cons x xs ih => exact fun s => by rw [List.foldl_cons, ih]; rfl
  exact (hmessages saved.messages _).trans
    (by rw [hneighbours saved.neighbours s])

variable {s s' : Store} {ts : List (Ref Neighbours)} {ms : List (Ref Ranks)} {saved : SavedRanks}

theorem SwitchedOff.saveNeighbours (hs : s.WellKeyed) (h : SwitchedOff s ts ms saved s')
    (r : Ref Neighbours) : SwitchedOff s (ts ++ [r]) ms (saveNeighbours r saved s').1
      (saveNeighbours r saved s').2 := by
  have hstore : ∀ t : Neighbours,
      t.keys.foldl (fun s field => s.setNeighbour r field nullRank) s' =
        { s' with neighbours := s'.neighbours.update r (·.overwrite t.silenced.entries) } := by
    intro t
    have hentries : t.silenced.entries = t.keys.map (·, nullRank) := by
      simp [Neighbours.silenced, Table.mapValues, Table.keys]
    rw [← setNeighbours_eq, hentries, List.foldl_map]
  have hcell : (s'.neighbours.update r
      (·.overwrite ((s'.neighbours.get? r).getD .empty).silenced.entries)).get? r =
        (s'.neighbours.get? r).map Neighbours.silenced := by
    rw [Cells.get?_update_self]
    cases hget : s'.neighbours.get? r with
    | none => rfl
    | some t =>
      have hnodup : t.keys.Nodup := by
        cases hr : s.neighbours.get? r with
        | none =>
          rw [h.neighbours.current, hr] at hget
          split at hget <;> simp at hget
        | some v =>
          obtain rfl := Option.some.inj ((h.neighbours.get? hr).symm.trans hget)
          split
          · exact hs r v hr
          · simpa using hs r v hr
      simp [Table.overwrite_eq (u := t.silenced) (by simp) hnodup]
  simp only [SavedRanks.saveNeighbours, hstore]
  refine ⟨h.neighbours.snoc Neighbours.silenced_silenced hcell
    (fun r' hr' => Cells.get?_update_of_ne _ _ hr') ?_ ?_, h.messages⟩
  · intro t ht
    simp [ht]
  · intro r' hr'
    simp [snapshots_snoc, hr']

theorem SwitchedOff.saveMessage (h : SwitchedOff s ts ms saved s') (r : Ref Ranks) :
    SwitchedOff s ts (ms ++ [r]) (saveMessage r saved s').1 (saveMessage r saved s').2 := by
  unfold SavedRanks.saveMessage
  cases hget : s'.messages.get? r with
  | none =>
    dsimp only
    refine ⟨h.neighbours, h.messages.snoc (fun _ => rfl) ?_ (fun _ _ => rfl) ?_ fun _ _ => rfl⟩
    · simp [hget]
    · simp [hget]
  | some ranks =>
    dsimp only
    refine ⟨h.neighbours, h.messages.snoc (fun _ => rfl) ?_
      (fun r' hr' => Cells.get?_update_of_ne _ _ hr') ?_ ?_⟩
    · rw [Store.setRanks, Cells.get?_update_self, hget]
      rfl
    · intro v hv
      rw [Option.some.inj (hget.symm.trans hv)]
    · intro r' hr'
      simp [snapshots_snoc, hr']

theorem SwitchedOff.saveMessages (h : SwitchedOff s ts ms saved s') (rs : List (Ref Ranks)) :
    SwitchedOff s ts (ms ++ rs)
      (rs.foldl (fun (saved, s) r => SavedRanks.saveMessage r saved s) (saved, s')).1
      (rs.foldl (fun (saved, s) r => SavedRanks.saveMessage r saved s) (saved, s')).2 := by
  induction rs generalizing ms saved s' with
  | nil => simpa using h
  | cons r rs ih => simpa using ih (h.saveMessage r)

theorem SwitchedOff.saveParameter (hs : s.WellKeyed) (h : SwitchedOff s ts ms saved s')
    (args : Arguments) (p : Parameter) :
    SwitchedOff s (ts ++ routedNeighbours [p] args) (ms ++ routedMessages [p] args)
      (saveParameter args p saved s').1 (saveParameter args p saved s').2 := by
  have hother (hn : ∀ r, ¬ (p.kind = .neighbours ∧ args.get? p.name = some (.neighbours r)))
      (hm : ∀ rs, ¬ (p.kind = .messages ∧ args.get? p.name = some (.messages rs))) :
      SwitchedOff s (ts ++ routedNeighbours [p] args) (ms ++ routedMessages [p] args)
        (SavedRanks.saveParameter args p saved s').1
        (SavedRanks.saveParameter args p saved s').2 := by
    unfold SavedRanks.saveParameter
    split <;> simp_all [routedNeighbours, routedMessages]
  cases hkind : p.kind with
  | neighbours =>
    cases harg : args.get? p.name with
    | none => exact hother (by simp [harg]) (by simp [hkind])
    | some a =>
      cases a with
      | neighbours r =>
        simpa [SavedRanks.saveParameter, routedNeighbours, routedMessages, hkind, harg] using
          h.saveNeighbours hs r
      | _ => exact hother (by simp [harg]) (by simp [hkind])
  | messages =>
    cases harg : args.get? p.name with
    | none => exact hother (by simp [hkind]) (by simp [harg])
    | some a =>
      cases a with
      | messages rs =>
        simpa [SavedRanks.saveParameter, routedNeighbours, routedMessages, hkind, harg] using
          h.saveMessages rs
      | _ => exact hother (by simp [hkind]) (by simp [harg])
  | _ => exact hother (by simp [hkind]) (by simp [hkind])

theorem switchedOff_switchOff (hs : s.WellKeyed) (ps : List Parameter) (args : Arguments) :
    SwitchedOff s (routedNeighbours ps args) (routedMessages ps args) (switchOff ps args s).1
      (switchOff ps args s).2 := by
  have hfold : ∀ (ps : List Parameter) {ts ms saved s'}, SwitchedOff s ts ms saved s' →
      SwitchedOff s (ts ++ routedNeighbours ps args) (ms ++ routedMessages ps args)
        (ps.foldl (fun (saved, s) p => SavedRanks.saveParameter args p saved s) (saved, s')).1
        (ps.foldl (fun (saved, s) p => SavedRanks.saveParameter args p saved s) (saved, s')).2 := by
    intro ps
    induction ps with
    | nil => intro ts ms saved s' h; simpa [routedNeighbours, routedMessages] using h
    | cons p ps ih =>
      intro ts ms saved s' h
      simpa [routedNeighbours, routedMessages] using ih (h.saveParameter hs args p)
  have hstart : SwitchedOff s [] [] {} s := ⟨saving_nil _ _, saving_nil _ _⟩
  simpa [switchOff] using hfold ps hstart

structure Aside (s s' : Store) : Prop where
  buffers : s'.buffers = s.buffers
  timers : s'.timers = s.timers

theorem aside_foldl {β : Type} {f : SavedRanks × Store → β → SavedRanks × Store} (xs : List β)
    (hf : ∀ x b, Aside x.2 (f x b).2) (x : SavedRanks × Store) : Aside x.2 (xs.foldl f x).2 := by
  induction xs generalizing x with
  | nil => exact ⟨rfl, rfl⟩
  | cons b xs ih =>
    have hhead := hf x b
    have htail := ih (f x b)
    exact ⟨htail.buffers.trans hhead.buffers, htail.timers.trans hhead.timers⟩

theorem aside_saveNeighbours (r : Ref Neighbours) (saved : SavedRanks) (s : Store) :
    Aside s (saveNeighbours r saved s).2 := by
  have hfold := setNeighbours_eq r
    (((s.neighbours.get? r).getD .empty).keys.map (·, nullRank)) s
  rw [List.foldl_map] at hfold
  simp only [saveNeighbours, hfold]
  exact ⟨rfl, rfl⟩

theorem aside_saveMessage (r : Ref Ranks) (saved : SavedRanks) (s : Store) :
    Aside s (saveMessage r saved s).2 := by
  unfold saveMessage
  split <;> exact ⟨rfl, rfl⟩

theorem aside_switchOff (ps : List Parameter) (args : Arguments) (s : Store) :
    Aside s (switchOff ps args s).2 := by
  refine aside_foldl ps (fun x p => ?_) ({}, s)
  simp only [saveParameter]
  split
  · exact aside_saveNeighbours _ _ _
  · exact aside_foldl _ (fun x r => aside_saveMessage r x.1 x.2) _
  · exact ⟨rfl, rfl⟩

theorem aside_restore (saved : SavedRanks) (s : Store) : Aside s (saved.restore s) := by
  rw [restore_eq]
  exact ⟨rfl, rfl⟩

theorem SwitchedOff.restore_neighbours (hs : s.WellKeyed) (h : SwitchedOff s ts ms saved s')
    {d : Store} (hd : s'.neighbours.Keeps d.neighbours) {r : Ref Neighbours} {t : Neighbours}
    (ht : s.neighbours.get? r = some t) : (saved.restore d).neighbours.get? r =
      some (if ts.count r ≤ 1 then t else t.silenced) := by
  rw [restore_eq]
  refine h.neighbours.restored (fun t u => t.overwrite u.entries) hd ht ?_
  intro a ha b hb
  have hkeys : ∀ c ∈ [t, t.silenced], c.keys = t.keys := by simp
  exact Table.overwrite_eq ((hkeys a ha).trans (hkeys b hb).symm) (hkeys a ha ▸ hs r t ht)

theorem SwitchedOff.restore_messages (h : SwitchedOff s ts ms saved s') {d : Store}
    (hd : s'.messages.Keeps d.messages) {r : Ref Ranks} {ranks : Ranks} (hr : s.messages.get? r = some ranks) :
    (saved.restore d).messages.get? r = some (if ms.count r ≤ 1 then ranks else nowhere) := by
  rw [restore_eq]
  exact h.messages.restored (fun _ ranks => ranks) hd hr fun _ _ _ _ => rfl

theorem restore_get?_eq_none {d : Store} (saved : SavedRanks) :
    (∀ r, d.neighbours.get? r = none → (saved.restore d).neighbours.get? r = none) ∧
      ∀ r, d.messages.get? r = none → (saved.restore d).messages.get? r = none := by
  rw [restore_eq]
  constructor
  · intro r hr
    exact (get?_foldl_update (fun t u => t.overwrite u.entries) saved.neighbours _ r).trans
      (by rw [hr, Option.map_none])
  · intro r hr
    exact (get?_foldl_update (fun _ ranks => ranks) saved.messages _ r).trans (by rw [hr, Option.map_none])

theorem SwitchedOff.restore_neighbours_iff (hs : s.WellKeyed) (h : SwitchedOff s ts ms saved s') :
    (∀ r ∈ ts, (saved.restore s').neighbours.get? r = s.neighbours.get? r) ↔
      ∀ r t, 1 < ts.count r → s.neighbours.get? r = some t → ∀ rank ∈ t.values, rank = nullRank := by
  constructor
  · intro hback r t hr ht
    have hmem : r ∈ ts := List.count_pos_iff.1 (by omega)
    have hget := h.restore_neighbours hs (.refl _) ht
    rw [hback r hmem, ht, if_neg (by omega)] at hget
    exact Neighbours.silenced_eq_self_iff.1 (Option.some.inj hget).symm
  · intro honce r hr
    cases ht : s.neighbours.get? r with
    | none =>
      refine (restore_get?_eq_none saved).1 r ?_
      rw [h.neighbours.current, ht]
      split <;> rfl
    | some t =>
      rw [h.restore_neighbours hs (.refl _) ht]
      split
      · rfl
      · rw [Neighbours.silenced_eq_self_iff.2 (honce r t (by omega) ht)]

theorem SwitchedOff.restore_messages_iff (h : SwitchedOff s ts ms saved s') :
    (∀ r ∈ ms, (saved.restore s').messages.get? r = s.messages.get? r) ↔
      ∀ r ranks, 1 < ms.count r → s.messages.get? r = some ranks → ranks = nowhere := by
  constructor
  · intro hback r ranks hr hranks
    have hmem : r ∈ ms := List.count_pos_iff.1 (by omega)
    have hget := h.restore_messages (.refl _) hranks
    rw [hback r hmem, hranks, if_neg (by omega)] at hget
    exact Option.some.inj hget
  · intro honce r hr
    cases hranks : s.messages.get? r with
    | none =>
      refine (restore_get?_eq_none saved).2 r ?_
      rw [h.messages.current, hranks]
      split <;> rfl
    | some ranks =>
      rw [h.restore_messages (.refl _) hranks]
      split
      · rfl
      · rw [honce r ranks (by omega) hranks]

/-- While the exchange is off, all ranks of the routing parameters are null. Switching it on again
brings them back exactly if every handle that stands more than once had null ranks from the
start. -/
theorem restore_switchOff_iff (hs : s.WellKeyed) (ps : List Parameter) (args : Arguments) :
    (∀ r ∈ routedNeighbours ps args, (switchOff ps args s).2.neighbours.get? r =
      (s.neighbours.get? r).map Neighbours.silenced) ∧
    (∀ r ∈ routedMessages ps args, (switchOff ps args s).2.messages.get? r =
      (s.messages.get? r).map fun _ => nowhere) ∧
    (((∀ r ∈ routedNeighbours ps args,
        ((switchOff ps args s).1.restore (switchOff ps args s).2).neighbours.get? r =
          s.neighbours.get? r) ∧
      ∀ r ∈ routedMessages ps args,
        ((switchOff ps args s).1.restore (switchOff ps args s).2).messages.get? r =
          s.messages.get? r) ↔
    (∀ r t, 1 < (routedNeighbours ps args).count r → s.neighbours.get? r = some t →
        ∀ rank ∈ t.values, rank = nullRank) ∧
      ∀ r ranks, 1 < (routedMessages ps args).count r → s.messages.get? r = some ranks →
        ranks = nowhere) := by
  have h := switchedOff_switchOff hs ps args
  refine ⟨fun r hr => ?_, fun r hr => ?_,
    and_congr (h.restore_neighbours_iff hs) h.restore_messages_iff⟩
  · rw [h.neighbours.current, if_pos hr]
  · rw [h.messages.current, if_pos hr]

/-- Two processes on either side, and a message between them. -/
def between : Store where
  neighbours := ⟨[⟨[("left", 0), ("right", 2)]⟩]⟩
  messages := ⟨[⟨0, 2⟩, nowhere]⟩

def routing : Arguments :=
  ⟨[("nb", .neighbours ⟨0⟩), ("sent", .messages [⟨0⟩, ⟨1⟩, ⟨1⟩])]⟩

theorem wellKeyed_between : between.WellKeyed := by
  intro r t ht
  have hall : ∀ t ∈ between.neighbours.contents, t.keys.Nodup := by decide
  exact hall t (List.mem_of_getElem? ht)

theorem restore_switchOff_iff_between :
    between.WellKeyed ∧
    ((switchOff [⟨"nb", .neighbours⟩, ⟨"sent", .messages⟩] routing between).1.restore
      (switchOff [⟨"nb", .neighbours⟩, ⟨"sent", .messages⟩] routing between).2).neighbours.get?
        ⟨0⟩ = some ⟨[("left", 0), ("right", 2)]⟩ := by
  have h := restore_switchOff_iff wellKeyed_between
    [⟨"nb", .neighbours⟩, ⟨"sent", .messages⟩] routing
  refine ⟨wellKeyed_between, (h.2.2.2 ⟨?_, ?_⟩).1 ⟨0⟩ (by decide)⟩
  · intro r t hr
    have hcount : ∀ r ∈ routedNeighbours [⟨"nb", .neighbours⟩, ⟨"sent", .messages⟩] routing,
      ¬ 1 < (routedNeighbours [⟨"nb", .neighbours⟩, ⟨"sent", .messages⟩] routing).count r := by
      decide
    exact absurd hr (hcount r (List.count_pos_iff.1 (by omega)))
  · intro r ranks hr hranks
    have hcount : ∀ r ∈ routedMessages [⟨"nb", .neighbours⟩, ⟨"sent", .messages⟩] routing,
      1 < (routedMessages [⟨"nb", .neighbours⟩, ⟨"sent", .messages⟩] routing).count r →
        between.messages.get? r = some nowhere := by
      decide
    exact Option.some.inj
      (hranks.symm.trans (hcount r (List.count_pos_iff.1 (by omega)) hr))

/-- A neighbourhood that stands twice loses its ranks. -/
theorem restore_loses_ranks :
    routedNeighbours [⟨"nb", .neighbours⟩, ⟨"nb", .neighbours⟩] routing = [⟨0⟩, ⟨0⟩] ∧
    ((switchOff [⟨"nb", .neighbours⟩, ⟨"nb", .neighbours⟩] routing between).1.restore
      (switchOff [⟨"nb", .neighbours⟩, ⟨"nb", .neighbours⟩] routing between).2).neighbours.get?
        ⟨0⟩ = some ⟨[("left", nullRank), ("right", nullRank)]⟩ ∧
    between.neighbours.get? ⟨0⟩ = some ⟨[("left", 0), ("right", 2)]⟩ := by
  decide

end SavedRanks

end Stencil
