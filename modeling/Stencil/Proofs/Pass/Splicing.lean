import Stencil.Proofs.Pass.Temporaries

namespace Stencil

open Stencil.Expr

variable {α : Type} {T T' : Set String}

namespace Expr

/-- Trees that come from others by temporaries in the place of subtrees, where `put` says what may
become of a node and its new operands. -/
inductive Reworked (T : Set String) (put : Expr α → List (Expr α) → Expr α → Prop) :
    Expr α → Expr α → Prop
  | replaced (e : Expr α) {t : Expr α} : Named T t → Reworked T put e t
  | node {e e' : Expr α} {es : List (Expr α)} : es.length = e.args.length →
      (∀ x ∈ e.args.zip es, Reworked T put x.1 x.2) → put e es e' → Reworked T put e e'

theorem Reworked.mono {put put' : Expr α → List (Expr α) → Expr α → Prop} {e e' : Expr α}
    (h : Reworked T put e e') (hT : T ⊆ T') (hput : ∀ {e es e'}, put e es e' → put' e es e') :
    Reworked T' put' e e' := by
  induction h with
  | replaced e ht => exact .replaced e (ht.mono hT)
  | node hlen _ hnode ih => exact .node hlen ih (hput hnode)

theorem Reworked.of_forall₂ {put : Expr α → List (Expr α) → Expr α → Prop} {e e' : Expr α}
    {es : List (Expr α)} (h : List.Forall₂ (Reworked T put) e.args es) (hput : put e es e') :
    Reworked T put e e' := by
  obtain ⟨hlen, hzip⟩ := List.forall₂_iff_zip.1 h
  exact .node hlen.symm (fun x hx => hzip hx) hput

/-- Trees that come from others by temporaries in the place of subtrees alone. Nodes keep their
operators and the order of their operands. -/
def Spliced (T : Set String) : Expr α → Expr α → Prop :=
  Reworked T fun e es e' => e' = rebuildRaw e es

theorem rebuildRaw_args (e : Expr α) : rebuildRaw e e.args = e := by
  cases e <;> rfl

theorem Spliced.refl (e : Expr α) : Spliced T e e := by
  induction e using inductArgs with
  | node e ih =>
    apply Reworked.of_forall₂ (List.forall₂_same.2 ih)
    exact (rebuildRaw_args e).symm

theorem eq_of_zip {es es' : List (Expr α)} (hlen : es'.length = es.length)
    (h : ∀ x ∈ es.zip es', x.2 = x.1) : es' = es := by
  have hall : List.Forall₂ Eq es es' :=
    List.forall₂_iff_zip.2 ⟨hlen.symm, fun hx => (h _ hx).symm⟩
  rw [List.forall₂_eq_eq_eq] at hall
  exact hall.symm

theorem Spliced.eq {e e' : Expr α} (h : Spliced T e e')
    (hT : ∀ t ∈ e'.subterms, ¬ Named T t) : e' = e := by
  induction h with
  | replaced e ht => exact absurd ht (hT _ (mem_subterms_self _))
  | @node e e' es hlen _ hnode ih =>
    subst hnode
    by_cases hleaf : e.isLeaf = true
    · cases e <;> first | rfl | simp [isLeaf] at hleaf
    · have hargs := args_rebuildRaw (Bool.eq_false_iff.2 hleaf) hlen
      have hes : es = e.args := by
        refine eq_of_zip hlen fun x hx => ih x hx fun t ht => hT t ?_
        rw [mem_subterms, hargs]
        exact .inr ⟨x.2, (List.of_mem_zip hx).2, ht⟩
      rw [hes, rebuildRaw_args]

variable [Arithmetic α]

theorem reworked_replaceBy {put : Expr α → List (Expr α) → Expr α → Prop}
    {build : Expr α → List (Expr α) → Expr α} (hbuild : ∀ e es, put e es (build e es))
    (hleaf : ∀ e, e.args = [] → put e [] e) {s : Substitution α}
    (hs : ∀ t ∈ s.values, Named T t) (e : Expr α) :
    Reworked T put e (replaceBy build s e) := by
  induction e using inductArgs with
  | node e ih =>
    rw [replaceBy_eq]
    cases hget : s.get? e with
    | some t => exact .replaced e (hs t (Table.mem_values_of_get? hget))
    | none =>
      have hargs : List.Forall₂ (Reworked T put) e.args (e.args.map (replaceBy build s)) := by
        rw [List.forall₂_map_right_iff, List.forall₂_same]
        exact ih
      apply Reworked.of_forall₂ hargs
      dsimp only
      split
      · rename_i hempty
        have hnil := List.isEmpty_iff.1 hempty
        rw [hnil]
        exact hleaf e hnil
      · exact hbuild e _

theorem spliced_replaceRaw {s : Substitution α} (hs : ∀ t ∈ s.values, Named T t) (e : Expr α) :
    Spliced T e (e.replaceRaw s) := by
  apply reworked_replaceBy _ _ hs
  · exact fun e es => rfl
  · intro e hnil
    rw [← hnil, rebuildRaw_args]

inductive Anew (T : Set String) (e : Expr α) (es : List (Expr α)) : Expr α → Prop
  | bare : e.args = [] → Anew T e es e
  | rebuilt : Anew T e es (rebuild e es)
  | reordered {es' : List (Expr α)} : e.isSum = true ∨ e.isProduct = true → es'.Perm es →
      Anew T e es (rebuild e es')
  | gathered {es' rest : List (Expr α)} {t : Expr α} : e.isSum = true ∨ e.isProduct = true →
      (rest ++ es').Perm es → Named T t → Anew T e es (rebuild e (rest ++ [t]))

theorem Anew.mono {e e' : Expr α} {es : List (Expr α)} (h : Anew T e es e') (hT : T ⊆ T') :
    Anew T' e es e' := by
  cases h with
  | bare hnil => exact .bare hnil
  | rebuilt => exact .rebuilt
  | reordered hac hperm => exact .reordered hac hperm
  | gathered hac hperm ht => exact .gathered hac hperm (ht.mono hT)

def Rebuilt (T : Set String) : Expr α → Expr α → Prop := Reworked T (Anew T)

theorem Rebuilt.mono {e e' : Expr α} (h : Rebuilt T e e') (hT : T ⊆ T') : Rebuilt T' e e' :=
  Reworked.mono h hT fun h => h.mono hT

theorem rebuilt_replace {s : Substitution α} (hs : ∀ t ∈ s.values, Named T t) (e : Expr α) :
    Rebuilt T e (e.replace s) :=
  reworked_replaceBy (fun _ _ => .rebuilt) (fun _ hnil => .bare hnil) hs e

theorem Rebuilt.eq [AlgebraicField α] [Exact α] {e e' : Expr α} (h : Rebuilt ∅ e e')
    (hc : Canonical e) : e' = e := by
  induction h with
  | replaced e ht =>
    obtain ⟨s, hs, -⟩ := ht
    exact hs.elim
  | @node e e' es hlen _ hnode ih =>
    have hes : es = e.args := by
      refine eq_of_zip hlen fun x hx => ih x hx (hc.args x.1 (List.of_mem_zip hx).1)
    rw [hes] at hnode
    cases hnode with
    | bare => rfl
    | rebuilt => exact rebuild_self hc
    | reordered hac hperm => rw [rebuild_of_perm hac hperm, rebuild_self hc]
    | gathered _ _ ht =>
      obtain ⟨s, hs, -⟩ := ht
      exact hs.elim

end Expr

namespace Extraction

variable [Arithmetic α] {g : Names} {F F' : Found α} {p : Policy α} {e : Expr α}
  {args cs : List (Expr α)} {parts : List (Part α)}

def taken (g : Names) (F : Found α) : Set String := g.first F.size

theorem taken_mono (hF : F.entries <+: F'.entries) : taken g F ⊆ taken g F' :=
  g.first_mono hF.length_le

theorem extract_named (e : Expr α) :
    Yields (Numbered g.name) F (extract g.name e) fun F' t => Named (taken g F') t := by
  intro hF
  cases hget : F.get? e with
  | some t =>
    rw [run_extract_of_some hget]
    refine ⟨hF, List.prefix_rfl, ?_⟩
    have hmem : t ∈ (List.range F.size).map fun n => sym (g.name n) :=
      hF ▸ Table.mem_values_of_get? hget
    obtain ⟨n, hn, rfl⟩ := List.mem_map.1 hmem
    exact ⟨_, ⟨n, List.mem_range.1 hn, rfl⟩, rfl⟩
  | none =>
    have hins := entries_insert (t := sym (g.name F.size)) hget
    rw [run_extract_of_none hget]
    refine ⟨hF.insert hget, ?_, ?_⟩
    · exact hins ▸ List.prefix_append _ _
    · have hsize : (F.insert e (sym (g.name F.size))).size = F.size + 1 := by
        rw [Table.size, hins, List.length_append]
        rfl
      exact ⟨_, ⟨F.size, hsize ▸ F.size.lt_succ_self, rfl⟩, rfl⟩

def Left (T : Set String) (e e' : Expr α) : Prop := e' = e ∨ Named T e'

theorem extractIf_left (e : Expr α) :
    Yields (Numbered g.name) F (extractIf p g.name e) fun F' e' => Left (taken g F') e e' := by
  unfold extractIf
  split
  · intro hF
    obtain ⟨hF', hinitial, ht⟩ := extract_named e hF
    exact ⟨hF', hinitial, Or.inr ht⟩
  · exact .pure (Or.inl rfl)

omit [Arithmetic α] in
theorem Left.mono {e' : Expr α} (h : Left T e e') (hT : T ⊆ T') : Left T' e e' :=
  h.imp_right fun h => h.mono hT

theorem forall₂_rebuilt_left (h : List.Forall₂ (fun a x => Rebuilt T a x.1) args parts)
    (hcs : List.Forall₂ (fun x c => Left T x.1 c) parts cs) :
    List.Forall₂ (Rebuilt T) args cs := by
  induction h generalizing cs with
  | nil =>
    cases hcs
    exact .nil
  | cons hax _ ih =>
    obtain ⟨c, cs, hxc, hrest, rfl⟩ := List.forall₂_cons_left_iff.1 hcs
    refine .cons ?_ (ih hrest)
    rcases hxc with rfl | hc
    · exact hax
    · exact .replaced _ hc

omit [Arithmetic α] in
theorem exists_left_perm {ms : List (Expr α)}
    (h : List.Forall₂ (Left T) ((parts.filter (·.2)).map (·.1)) ms) :
    ∃ cs, List.Forall₂ (fun x c => Left T x.1 c) parts cs ∧
      ((parts.filter (!·.2)).map (·.1) ++ ms).Perm cs := by
  induction parts generalizing ms with
  | nil =>
    cases h
    exact ⟨[], .nil, .refl _⟩
  | cons x parts ih =>
    cases hx : x.2 with
    | true =>
      rw [List.filter_cons_of_pos hx, List.map_cons] at h
      obtain ⟨m, ms, hm, hms, rfl⟩ := List.forall₂_cons_left_iff.1 h
      obtain ⟨cs, hcs, hperm⟩ := ih hms
      refine ⟨m :: cs, .cons hm hcs, ?_⟩
      rw [List.filter_cons_of_neg (by simp [hx])]
      exact List.perm_middle.trans (hperm.cons m)
    | false =>
      rw [List.filter_cons_of_neg (by simp [hx])] at h
      obtain ⟨cs, hcs, hperm⟩ := ih h
      refine ⟨x.1 :: cs, .cons (Or.inl rfl) hcs, ?_⟩
      rw [List.filter_cons_of_pos (by simp [hx])]
      exact hperm.cons x.1

theorem growOrExtract_rebuilt {root : Bool} {w : Expr α} (h : Rebuilt (taken g F) e w) :
    Yields (Numbered g.name) F (growOrExtract p g.name root w) fun F' x => Rebuilt (taken g F') e x.1 := by
  unfold growOrExtract
  split
  · exact (extract_named w).bind fun F' t _ ht => .pure (.replaced e ht)
  · exact .pure h

theorem extractOperands_rebuilt
    (h : List.Forall₂ (fun a x => Rebuilt (taken g F) a x.1) e.args parts) :
    Yields (Numbered g.name) F (extractOperands p g.name e parts)
      fun F' e' => Rebuilt (taken g F') e e' := by
  have hparts : List.Forall₂ Eq parts parts := List.forall₂_same.2 fun x _ => rfl
  apply (Yields.mapM (P := fun (x : Part α) F' c => Left (taken g F') x.1 c) _ hparts _).bind
  · intro F' cs hF hcs
    have hargs := h.imp fun _ _ h => Rebuilt.mono h (taken_mono hF)
    exact .pure (.of_forall₂ (forall₂_rebuilt_left hargs hcs) .rebuilt)
  · exact fun x F F' c hF hc => hc.mono (taken_mono hF)
  · rintro x _ rfl F' -
    split
    · exact extractIf_left x.1
    · exact .pure (Or.inl rfl)

theorem splitOperands_rebuilt (hac : e.isSum = true ∨ e.isProduct = true)
    (h : List.Forall₂ (fun a x => Rebuilt (taken g F) a x.1) e.args parts) :
    Yields (Numbered g.name) F (splitOperands p g.name e parts)
      fun F' e' => Rebuilt (taken g F') e e' := by
  have hargs : ∀ {F' : Found α}, F.entries <+: F'.entries →
      List.Forall₂ (fun a x => Rebuilt (taken g F') a x.1) e.args parts :=
    fun hF => h.imp fun _ _ h => Rebuilt.mono h (taken_mono hF)
  simp only [splitOperands]
  split
  · -- The operands of the rule go into one temporary, and the others stay beside it.
    refine (extract_named _).bind fun F' t hF ht => .pure ?_
    have hsplit := (List.filter_append_perm (fun x : Part α => x.2) parts).map (·.1)
    rw [List.map_append] at hsplit
    have hcs : List.Forall₂ (Rebuilt (taken g F')) e.args (parts.map (·.1)) :=
      List.forall₂_map_right_iff.2 (hargs hF)
    exact .of_forall₂ hcs (.gathered hac (List.perm_append_comm.trans hsplit) ht)
  · -- The operands of the rule are extracted one by one and come last.
    have hmatch : List.Forall₂ Eq ((parts.filter (·.2)).map (·.1))
        ((parts.filter (·.2)).map (·.1)) := List.forall₂_same.2 fun m _ => rfl
    apply (Yields.mapM (P := fun m F' c => Left (taken g F') m c) _ hmatch _).bind
    · intro F' ms hF hms
      obtain ⟨cs, hcs, hperm⟩ := exists_left_perm hms
      exact .pure (.of_forall₂ (forall₂_rebuilt_left (hargs hF) hcs) (.reordered hac hperm))
    · exact fun m F F' c hF hc => hc.mono (taken_mono hF)
    · rintro m _ rfl F' -
      exact extractIf_left m

theorem node_rebuilt {root : Bool}
    (h : List.Forall₂ (fun a x => Rebuilt (taken g F) a x.1) e.args parts) :
    Yields (Numbered g.name) F (node p g.name root e parts) fun F' x => Rebuilt (taken g F') e x.1 := by
  have hcs : List.Forall₂ (Rebuilt (taken g F)) e.args (parts.map (·.1)) :=
    List.forall₂_map_right_iff.2 h
  simp only [node]
  split
  · rename_i hempty
    rw [List.isEmpty_iff.1 hempty] at h hcs
    refine .pure (.of_forall₂ hcs (.bare ?_))
    exact List.forall₂_nil_right_iff.1 h
  · split
    · exact growOrExtract_rebuilt (.of_forall₂ hcs .rebuilt)
    · split
      · exact (splitOperands_rebuilt (.inl rfl) h).bind fun F' e' _ he => .pure he
      · exact (splitOperands_rebuilt (.inr rfl) h).bind fun F' e' _ he => .pure he
      · exact (extractOperands_rebuilt h).bind fun F' e' _ he => .pure he

theorem mapM_run_rebuilt (h : ∀ a ∈ e.args, ∀ F : Found α,
      Yields (Numbered g.name) F (run p g.name a) fun F' x => Rebuilt (taken g F') a x.1) :
    Yields (Numbered g.name) F (e.args.mapM (run p g.name)) fun F' parts =>
      List.Forall₂ (fun a x => Rebuilt (taken g F') a x.1) e.args parts := by
  have hargs : List.Forall₂ (fun a b : Expr α => a = b ∧ a ∈ e.args) e.args e.args :=
    List.forall₂_same.2 fun a ha => ⟨rfl, ha⟩
  apply Yields.mapM (P := fun a F' (x : Part α) => Rebuilt (taken g F') a x.1) _ hargs
  · rintro a _ ⟨rfl, ha⟩ F' -
    exact h a ha F'
  · exact fun a F F' x hF hx => Rebuilt.mono hx (taken_mono hF)

theorem run_rebuilt (e : Expr α) (F : Found α) :
    Yields (Numbered g.name) F (run p g.name e) fun F' x => Rebuilt (taken g F') e x.1 := by
  induction e using inductArgs generalizing F with
  | node e ih =>
    rw [run_eq]
    exact (mapM_run_rebuilt ih).bind fun F' parts _ hparts => node_rebuilt hparts

theorem runRoot_rebuilt (e : Expr α) (F : Found α) :
    Yields (Numbered g.name) F (runRoot p g.name e) fun F' e' => Rebuilt (taken g F') e e' := by
  refine (mapM_run_rebuilt fun a _ => run_rebuilt a).bind fun F₁ parts _ hparts => ?_
  exact (node_rebuilt hparts).bind fun F₂ x _ hx => .pure hx

end Extraction

end Stencil
