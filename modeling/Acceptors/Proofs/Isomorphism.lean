import Acceptors.Automaton.Compare
import Acceptors.Proofs.Bisimilarity

/-!
Isomorphism of the reachable parts of two automata. The search goes through matchings that are
one-to-one and carry edges over (`Embedding`), and finds one of all states wherever there is one
(`extendMatching_iff`). Matched states have equally many edges on every symbol, so such a matching
carries edges back as well. Main statement: `isomorphic_iff`.
-/

namespace Acceptors

section Matchings

variable {α β : Type} {R : α → β → Prop}

theorem exists_matching {xs : List α} (h : ∀ x ∈ xs, ∃ y, R x y) :
    ∃ m : List (α × β), m.map (·.1) = xs ∧ ∀ x ∈ m, R x.1 x.2 := by
  induction xs with
  | nil => exact ⟨[], rfl, by simp⟩
  | cons x xs ih =>
    obtain ⟨y, hy⟩ := h x List.mem_cons_self
    obtain ⟨m, rfl, hm⟩ := ih fun x hx => h x (List.mem_cons_of_mem _ hx)
    exact ⟨(x, y) :: m, rfl, List.forall_mem_cons.mpr ⟨hy, hm⟩⟩

theorem nodup_images (hR : Relator.LeftUnique R) {m : List (α × β)} (hkeys : (m.map (·.1)).Nodup)
    (hm : ∀ x ∈ m, R x.1 x.2) : (m.map (·.2)).Nodup := by
  refine (List.Nodup.of_map _ hkeys).map_on fun x hx y hy hxy => ?_
  have hkey : x.1 = y.1 := hR (hm x hx) (hxy ▸ hm y hy)
  exact Prod.ext hkey hxy

/-- Different members have different images in another list. -/
theorem exists_images (hR : Relator.LeftUnique R) {xs : List α} {ys : List β} (hxs : xs.Nodup)
    (h : ∀ x ∈ xs, ∃ y ∈ ys, R x y) :
    ∃ m : List (α × β), m.map (·.1) = xs ∧ (∀ x ∈ m, R x.1 x.2) ∧ (m.map (·.2)).Subperm ys := by
  obtain ⟨m, rfl, hm⟩ := exists_matching (R := fun x y => y ∈ ys ∧ R x y) h
  have hm' : ∀ x ∈ m, R x.1 x.2 := fun x hx => (hm x hx).2
  refine ⟨m, rfl, hm', List.subperm_of_subset (nodup_images hR hxs hm') fun y hy => ?_⟩
  obtain ⟨x, hx, rfl⟩ := List.mem_map.mp hy
  exact (hm x hx).1

theorem length_le_of_leftUnique (hR : Relator.LeftUnique R) {xs : List α} {ys : List β}
    (hxs : xs.Nodup) (h : ∀ x ∈ xs, ∃ y ∈ ys, R x y) : xs.length ≤ ys.length := by
  obtain ⟨m, rfl, _, hsub⟩ := exists_images hR hxs h
  simpa using hsub.length_le

/-- Where there are no more members of the second list than of the first, each of them is an
image. -/
theorem exists_of_length_le (hR : Relator.LeftUnique R) {xs : List α} {ys : List β} (hxs : xs.Nodup)
    (h : ∀ x ∈ xs, ∃ y ∈ ys, R x y) (hlen : ys.length ≤ xs.length) : ∀ y ∈ ys, ∃ x ∈ xs, R x y := by
  obtain ⟨m, rfl, hm, hsub⟩ := exists_images hR hxs h
  have hperm := hsub.perm_of_length_le (by simpa using hlen)
  intro y hy
  obtain ⟨x, hx, rfl⟩ := List.mem_map.mp (hperm.mem_iff.mpr hy)
  exact ⟨x.1, List.mem_map_of_mem hx, hm x hx⟩

end Matchings

namespace Automaton

variable {A B C : FiniteAutomaton} {R S : Nat → Nat → Prop} {m : Matching} {p q : Nat}

/-! ## Isomorphisms -/

/-- A one-to-one bisimulation of the initial states under which states have entries for the same
symbols. -/
structure Isomorphism (A B : FiniteAutomaton) (R : Nat → Nat → Prop) : Prop extends
    Bisimulation A B R where
  initial : R A.initial B.initial
  biUnique : Relator.BiUnique R
  entry {p q : Nat} : R p q → ∀ s, A.HasEntry p s ↔ B.HasEntry q s

/-- Some isomorphism relates the states that the initial states lead to. -/
def Isomorphic (A B : FiniteAutomaton) : Prop := ∃ R, Isomorphism A B R

theorem Isomorphism.symm (h : Isomorphism A B R) : Isomorphism B A (flip R) where
  toBisimulation := h.toBisimulation.symm
  initial := h.initial
  biUnique := ⟨fun _ _ _ hp hp' => h.biUnique.2 hp hp', fun _ _ _ hq hq' => h.biUnique.1 hq hq'⟩
  entry hqp s := (h.entry hqp s).symm

theorem Isomorphism.trans (hR : Isomorphism A B R) (hS : Isomorphism B C S) :
    Isomorphism A C (Relation.Comp R S) where
  toBisimulation := hR.toBisimulation.trans hS.toBisimulation
  initial := ⟨B.initial, hR.initial, hS.initial⟩
  biUnique := by
    constructor
    · rintro p p' r ⟨q, hpq, hqr⟩ ⟨q', hpq', hqr'⟩
      obtain rfl := hS.biUnique.1 hqr hqr'
      exact hR.biUnique.1 hpq hpq'
    · rintro p r r' ⟨q, hpq, hqr⟩ ⟨q', hpq', hqr'⟩
      obtain rfl := hR.biUnique.2 hpq hpq'
      exact hS.biUnique.2 hqr hqr'
  entry := by
    rintro p r ⟨q, hpq, hqr⟩ s
    exact (hR.entry hpq s).trans (hS.entry hqr s)

theorem Isomorphic.refl (A : FiniteAutomaton) : A.Isomorphic A :=
  ⟨(· = ·), .refl A, rfl, ⟨fun _ _ _ h h' => h.trans h'.symm, fun _ _ _ h h' => h.symm.trans h'⟩,
    fun h s => by rw [h]⟩

theorem Isomorphic.symm (h : A.Isomorphic B) : B.Isomorphic A := by
  obtain ⟨R, hR⟩ := h
  exact ⟨flip R, hR.symm⟩

theorem Isomorphic.trans (hAB : A.Isomorphic B) (hBC : B.Isomorphic C) : A.Isomorphic C := by
  obtain ⟨R, hR⟩ := hAB
  obtain ⟨S, hS⟩ := hBC
  exact ⟨_, hR.trans hS⟩

/-- Isomorphic automata have the same words. -/
theorem Isomorphic.wordsFrom_eq (h : A.Isomorphic B) :
    A.wordsFrom A.initial = B.wordsFrom B.initial := by
  obtain ⟨R, hR⟩ := h
  exact hR.toBisimulation.wordsFrom_eq hR.initial

/-! ## Degrees -/

theorem degrees_eq_tableAt (p : Nat) :
    A.degrees p = ((A.tableAt p).map fun _ targets => targets.size).entries := by
  unfold degrees tableAt
  cases A.states[p]? <;> rfl

/-- States have one list of degrees if and only if they have entries for the same symbols and
equally many edges on every symbol. -/
theorem degrees_eq_iff : A.degrees p = B.degrees q ↔
    (∀ s, A.HasEntry p s ↔ B.HasEntry q s) ∧
      ∀ s, (A.next p s).length = (B.next q s).length := by
  rw [degrees_eq_tableAt, degrees_eq_tableAt, SortedMap.entries_map_eq_iff, ← forall_and]
  refine forall_congr' fun s => ?_
  simp only [hasEntry_iff_tableAt, next_eq_tableAt, Table.next]
  cases (A.tableAt p).get? s <;> cases (B.tableAt q).get? s <;> simp [SortedSet.size]

/-- Related states have equally many edges on every symbol. -/
theorem Isomorphism.degrees_eq (h : Isomorphism A B R) (hpq : R p q) :
    A.degrees p = B.degrees q := by
  refine degrees_eq_iff.mpr ⟨h.entry hpq, fun s => le_antisymm ?_ ?_⟩
  · exact length_le_of_leftUnique h.biUnique.1 (A.nodup_next p s) fun p' hs => h.forth hpq hs
  · exact length_le_of_leftUnique h.symm.biUnique.1 (B.nodup_next q s) fun q' hs =>
      h.symm.forth hpq hs

/-! ## Matchings of states -/

/-- The matching is one-to-one, its states agree on termination and degrees, and it carries the
edges between them over. -/
structure Embedding (A B : FiniteAutomaton) (m : Matching) : Prop where
  keys : (m.map (·.1)).Nodup
  images : (m.map (·.2)).Nodup
  terminal : ∀ x ∈ m, A.isTerminal x.1 = B.isTerminal x.2
  degrees : ∀ x ∈ m, A.degrees x.1 = B.degrees x.2
  step : ∀ x ∈ m, ∀ y ∈ m, ∀ s, A.Step x.1 s y.1 → B.Step x.2 s y.2

theorem Embedding.nil : Embedding A B [] := by constructor <;> simp

theorem Embedding.of_append {n : Matching} (h : Embedding A B (n ++ m)) : Embedding A B m where
  keys := h.keys.sublist ((List.sublist_append_right n m).map _)
  images := h.images.sublist ((List.sublist_append_right n m).map _)
  terminal x hx := h.terminal x (List.mem_append_right n hx)
  degrees x hx := h.degrees x (List.mem_append_right n hx)
  step x hx y hy := h.step x (List.mem_append_right n hx) y (List.mem_append_right n hy)

theorem Embedding.biUnique (h : Embedding A B m) : Relator.BiUnique fun p q => (p, q) ∈ m := by
  constructor
  · intro p p' q hp hp'
    exact (Prod.mk.inj (List.inj_on_of_nodup_map h.images hp hp' rfl)).1
  · intro p q q' hq hq'
    exact (Prod.mk.inj (List.inj_on_of_nodup_map h.keys hq hq' rfl)).2

theorem mem_of_image?_eq_some (h : image? m p = some q) : (p, q) ∈ m := by
  obtain ⟨x, hx, rfl⟩ := Option.map_eq_some_iff.mp h
  have hkey : x.1 = p := by simpa using List.find?_some hx
  exact hkey ▸ List.mem_of_find?_eq_some hx

theorem image?_eq_some_iff (hkeys : (m.map (·.1)).Nodup) : image? m p = some q ↔ (p, q) ∈ m := by
  refine ⟨mem_of_image?_eq_some, fun hq => ?_⟩
  cases himage : image? m p with
  | none =>
    have hnone := List.find?_eq_none.mp (Option.map_eq_none_iff.mp himage) _ hq
    simp at hnone
  | some q' =>
    have hsame := List.inj_on_of_nodup_map hkeys (mem_of_image?_eq_some himage) hq rfl
    rw [(Prod.mk.inj hsame).2]

theorem outgoingAgree_iff (h : (((p, q) :: m).map (·.1)).Nodup) :
    A.outgoingAgree B m p q = true ↔ ∀ x ∈ (p, q) :: m, ∀ s, A.Step p s x.1 → B.Step q s x.2 := by
  simp only [outgoingAgree, List.all_eq_true, Prod.forall, mem_edges]
  constructor
  · intro hall r i hx s hs
    have hr := hall s r hs
    rw [(image?_eq_some_iff h).mpr hx] at hr
    simpa [Step] using hr
  · intro hall s r hs
    cases hi : image? ((p, q) :: m) r with
    | none => rfl
    | some i => simpa [Step] using hall r i ((image?_eq_some_iff h).mp hi) s hs

theorem incomingAgree_iff :
    A.incomingAgree B m p q = true ↔ ∀ x ∈ m, ∀ s, A.Step x.1 s p → B.Step x.2 s q := by
  simp only [incomingAgree, List.all_eq_true, Prod.forall, mem_edges, Bool.or_eq_true, bne_iff_ne,
    List.contains_iff_mem]
  constructor
  · intro hall r i hx s hs
    exact (hall r i hx s p hs).resolve_left fun hne => hne rfl
  · intro hall r i hx s p' hs
    by_cases hp : p' = p
    · exact .inr (hall r i hx s (hp ▸ hs))
    · exact .inl hp

/-- The tests made of a new pair are those that keep the matching an embedding. -/
theorem embedding_cons_iff (hp : p ∉ m.map (·.1)) : Embedding A B ((p, q) :: m) ↔
    Embedding A B m ∧ (∀ x ∈ m, x.2 ≠ q) ∧ A.compatible B m p q = true := by
  have himages : (((p, q) :: m).map (·.2)).Nodup ↔ (∀ x ∈ m, x.2 ≠ q) ∧ (m.map (·.2)).Nodup := by
    simp only [List.map_cons, List.nodup_cons, List.mem_map, not_exists, not_and, ne_eq]
  simp only [compatible, Bool.and_eq_true, beq_iff_eq, incomingAgree_iff]
  constructor
  · intro h
    refine ⟨h.of_append (n := [(p, q)]), (himages.mp h.images).1, ⟨⟨?_, ?_⟩, ?_⟩, ?_⟩
    · exact h.terminal _ List.mem_cons_self
    · exact h.degrees _ List.mem_cons_self
    · exact (outgoingAgree_iff h.keys).mpr (h.step _ List.mem_cons_self)
    · exact fun x hx => h.step x (List.mem_cons_of_mem _ hx) _ List.mem_cons_self
  · rintro ⟨h, hq, ⟨⟨hterminal, hdegrees⟩, hout⟩, hin⟩
    have hkeys : (((p, q) :: m).map (·.1)).Nodup := List.nodup_cons.mpr ⟨hp, h.keys⟩
    refine ⟨hkeys, himages.mpr ⟨hq, h.images⟩, ?_, ?_, ?_⟩
    · exact List.forall_mem_cons.mpr ⟨hterminal, h.terminal⟩
    · exact List.forall_mem_cons.mpr ⟨hdegrees, h.degrees⟩
    · refine List.forall_mem_cons.mpr ⟨(outgoingAgree_iff hkeys).mp hout, fun x hx => ?_⟩
      exact List.forall_mem_cons.mpr ⟨hin x hx, h.step x hx⟩

/-! ## The search -/

/-- The matching is extended if and only if some embedding of the states to do goes on from it. -/
theorem extendMatching_iff {candidates todo : List Nat} (h : Embedding A B m)
    (hkeys : (todo.reverse ++ m.map (·.1)).Nodup) :
    A.extendMatching B candidates todo m = true ↔
      ∃ n : Matching, n.map (·.1) = todo.reverse ∧ (∀ x ∈ n, x.2 ∈ candidates) ∧
        Embedding A B (n ++ m) := by
  induction todo generalizing m with
  | nil =>
    simp only [extendMatching, true_iff]
    exact ⟨[], rfl, by simp, h⟩
  | cons p todo ih =>
    rw [List.reverse_cons, List.append_assoc, List.singleton_append] at hkeys
    have hp : p ∉ m.map (·.1) := (List.nodup_cons.mp (List.nodup_append.mp hkeys).2.1).1
    have hnext (q : Nat) : (!(m.any fun pair => pair.2 == q) && A.compatible B m p q &&
        A.extendMatching B candidates todo ((p, q) :: m)) = true ↔ Embedding A B ((p, q) :: m) ∧
          A.extendMatching B candidates todo ((p, q) :: m) = true := by
      simp only [embedding_cons_iff hp, and_iff_right h, Bool.and_eq_true, Bool.not_eq_true',
        List.any_eq_false, beq_iff_eq, ne_eq]
    simp only [extendMatching, List.any_eq_true, hnext]
    constructor
    · rintro ⟨q, hq, hcons, hrest⟩
      obtain ⟨n, hn, himages, hembedding⟩ := (ih hcons hkeys).mp hrest
      refine ⟨n ++ [(p, q)], by simp [hn], ?_, by simpa using hembedding⟩
      exact List.forall_mem_append.mpr ⟨himages, by simpa using hq⟩
    · rintro ⟨n, hn, himages, hembedding⟩
      rw [List.reverse_cons] at hn
      obtain ⟨n, last, rfl, hinit, hlast⟩ := List.map_eq_append_iff.mp hn
      obtain ⟨⟨_, q⟩, rfl, rfl⟩ := List.map_eq_singleton_iff.mp hlast
      rw [List.append_assoc, List.singleton_append] at hembedding
      obtain ⟨himages, hq⟩ := List.forall_mem_append.mp himages
      exact ⟨q, by simpa using hq, hembedding.of_append,
        (ih hembedding.of_append hkeys).mpr ⟨n, hinit, himages, hembedding⟩⟩

/-- The search looks for an embedding of all reachable states. -/
theorem isomorphic_iff_embedding {todo : List Nat} (hA : A.WellFormed)
    (htodo : A.graph.nodes A.size = A.initial :: todo) : A.isomorphic B = true ↔
      (A.graph.nodes A.size).length = (B.graph.nodes B.size).length ∧
        ∃ n : Matching, n.map (·.1) = todo.reverse ∧ (∀ x ∈ n, x.2 ∈ B.graph.nodes B.size) ∧
          Embedding A B (n ++ [(A.initial, B.initial)]) := by
  have hkeys : (todo.reverse ++ [A.initial]).Nodup := by
    rw [← List.reverse_cons, ← htodo]
    exact List.nodup_reverse.mpr (lists_graph hA).nodup
  have horder : A.breadthFirst = A.initial :: todo := htodo
  have hstart : A.compatible B [] A.initial B.initial = true ↔
      Embedding A B [(A.initial, B.initial)] := by
    simp [embedding_cons_iff, Embedding.nil]
  rw [htodo]
  simp only [isomorphic, horder, Bool.and_eq_true, beq_iff_eq, hstart]
  refine and_congr_right fun _ => ?_
  constructor
  · rintro ⟨h, hsearch⟩
    exact (extendMatching_iff h hkeys).mp hsearch
  · rintro ⟨n, hn, himages, h⟩
    exact ⟨h.of_append, (extendMatching_iff h.of_append hkeys).mpr ⟨n, hn, himages, h⟩⟩

/-! ## Embeddings and isomorphisms -/

theorem Embedding.exists_step (hA : A.WellFormed) (h : Embedding A B m)
    (hkeys : m.map (·.1) = (A.graph.nodes A.size).reverse) (hpq : (p, q) ∈ m) {s : Symbol}
    {p' : Nat} (hs : A.Step p s p') : ∃ q', B.Step q s q' ∧ (p', q') ∈ m := by
  have hp : p ∈ (A.graph.nodes A.size).reverse := hkeys ▸ List.mem_map_of_mem hpq
  have hp' := (lists_graph hA).closed p (List.mem_reverse.mp hp) s p' (step_graph.mpr hs)
  rw [← List.mem_reverse, ← hkeys] at hp'
  obtain ⟨x, hx, rfl⟩ := List.mem_map.mp hp'
  exact ⟨x.2, h.step _ hpq x hx s hs, hx⟩

/-- An embedding of all reachable states is an isomorphism. -/
theorem Embedding.isomorphism (hA : A.WellFormed) (h : Embedding A B m)
    (hkeys : m.map (·.1) = (A.graph.nodes A.size).reverse) (hinitial : (A.initial, B.initial) ∈ m) :
    Isomorphism A B fun p q => (p, q) ∈ m where
  terminal hpq := h.terminal _ hpq
  forth hpq hs := h.exists_step hA hkeys hpq hs
  back {p q q' s} hpq hs := by
    -- The edges of `p` on `s` go to different edges of `q`, and `q` has no more of them.
    have hlength := (degrees_eq_iff.mp (h.degrees _ hpq)).2 s
    exact exists_of_length_le h.biUnique.1 (A.nodup_next p s)
      (fun p' hs => h.exists_step hA hkeys hpq hs) hlength.ge q' hs
  initial := hinitial
  biUnique := h.biUnique
  entry hpq := (degrees_eq_iff.mp (h.degrees _ hpq)).1

theorem Isomorphism.embedding (h : Isomorphism A B R) (hkeys : (m.map (·.1)).Nodup)
    (hm : ∀ x ∈ m, R x.1 x.2) : Embedding A B m where
  keys := hkeys
  images := nodup_images h.biUnique.1 hkeys hm
  terminal x hx := h.terminal (hm x hx)
  degrees x hx := h.degrees_eq (hm x hx)
  step x hx y hy s hs := by
    obtain ⟨q', hs', hq'⟩ := h.forth (hm x hx) hs
    rwa [h.biUnique.2 (hm y hy) hq']

/-- Reachable states are related to reachable states. -/
theorem Isomorphism.exists_node (h : Isomorphism A B R) (hA : A.WellFormed) (hB : B.WellFormed) :
    ∀ p ∈ A.graph.nodes A.size, ∃ q ∈ B.graph.nodes B.size, R p q := by
  intro p hp
  obtain ⟨w, hw⟩ := (mem_nodes_graph hA).mp hp
  obtain ⟨q, hw', hpq⟩ := h.exists_walk h.initial hw
  exact ⟨q, (mem_nodes_graph hB).mpr ⟨w, hw'⟩, hpq⟩

theorem Isomorphism.length_nodes_le (h : Isomorphism A B R) (hA : A.WellFormed)
    (hB : B.WellFormed) :
    (A.graph.nodes A.size).length ≤ (B.graph.nodes B.size).length :=
  length_le_of_leftUnique h.biUnique.1 (lists_graph hA).nodup (h.exists_node hA hB)

/-- The search finds an isomorphism if and only if there is one. -/
theorem isomorphic_iff (hA : A.WellFormed) (hB : B.WellFormed) :
    A.isomorphic B = true ↔ A.Isomorphic B := by
  obtain ⟨todo, htodo⟩ : ∃ todo, A.graph.nodes A.size = A.initial :: todo :=
    A.graph.nodes_eq_cons A.size
  have hkeys (n : Matching) (hn : n.map (·.1) = todo.reverse) :
      (n ++ [(A.initial, B.initial)]).map (·.1) = (A.graph.nodes A.size).reverse := by
    rw [List.map_append, hn, htodo, List.reverse_cons]
    rfl
  rw [isomorphic_iff_embedding hA htodo]
  constructor
  · rintro ⟨_, n, hn, _, h⟩
    exact ⟨_, h.isomorphism hA (hkeys n hn) (List.mem_append_right n (List.mem_singleton_self _))⟩
  · rintro ⟨R, hR⟩
    have himage : ∀ p ∈ todo.reverse, ∃ q, q ∈ B.graph.nodes B.size ∧ R p q := fun p hp =>
      hR.exists_node hA hB p (htodo ▸ List.mem_cons_of_mem _ (List.mem_reverse.mp hp))
    obtain ⟨n, hn, hrelated⟩ := exists_matching himage
    have hnodup := List.nodup_reverse.mpr (lists_graph hA).nodup
    refine ⟨le_antisymm (hR.length_nodes_le hA hB) (hR.symm.length_nodes_le hB hA), n, hn,
      fun x hx => (hrelated x hx).1, hR.embedding ((hkeys n hn).symm ▸ hnodup) ?_⟩
    exact List.forall_mem_append.mpr ⟨fun x hx => (hrelated x hx).2, by simpa using hR.initial⟩

end Automaton

end Acceptors
