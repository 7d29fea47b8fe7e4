import BtreeMonstrousity.Map

/-!
`Clone for BTreeMap` (map.rs). `clone_subtree` copies a subtree node by node: a leaf by pushing clones of its pairs
into a new leaf; an internal node by cloning its first child, growing that tree a level with
`push_internal_level`, and pushing each slot's clone with the clone of the child right of it.

- `cloneSubtree ck cv h n`: the tree `clone_subtree` returns for the subtree of height `h` at `n`, `ck` and `cv`
  being `K::clone` and `V::clone`: its root (a height and a node) and its length field; `None` when a `push` is
  handed a child that is not one level below the node it goes into (node.rs's assertion).
- `cloneNode ck cv h n`: the subtree with every pair cloned, node for node.
- `BTreeMap.clone`: `BTreeMap::new_in` for an empty map, else `clone_subtree` of the root, whose tree is in the
  layout a root keeps (`cloneSubtree_root`).

`clone_subtree_same_tree`: on every subtree in the layout of `node.rs`, `clone_subtree` returns, with every `push`
assertion met, a tree of the same height and node structure holding the clones, whose length field counts its
pairs; a map whose length field counts its entries clones to a map of the cloned entries, in the same order, with
the same length, and an empty map to a rootless one.
-/

namespace BtreeMonstrousity

variable {K V : Type} (ck : K → K) (cv : V → V)

/-! ## The clone -/

/-- the subtree of height `h` at `n` with every pair cloned, node for node -/
def cloneNode : ℕ → Node K V → Node K V
  | 0, n => ⟨n.kvs.map fun kv => (ck kv.1, cv kv.2), []⟩
  | h + 1, n => ⟨n.kvs.map fun kv => (ck kv.1, cv kv.2), n.edges.map (cloneNode h)⟩

/-- the leaf loop: `out_node.push(k.clone(), v.clone())` and `out_tree.length += 1` for each pair -/
def pushLeaf : Node K V × ℕ → List (K × V) → Node K V × ℕ
  | acc, [] => acc
  | (out, len), kv :: kvs => pushLeaf (⟨out.kvs ++ [(ck kv.1, cv kv.2)], out.edges⟩, len + 1) kvs

/-- the internal loop: for each slot and the edge right of it, the child cloned by `sub`, then
`out_node.push(k, v, subroot.unwrap_or_else(Root::new))`, whose assertion wants the child one level below `out`
(of height `oh`), and `out_tree.length += 1 + sublength` -/
def pushInternal (sub : Node K V → Option (Option (ℕ × Node K V) × ℕ)) (oh : ℕ) :
    Node K V × ℕ → List (K × V) → List (Node K V) → Option (Node K V × ℕ)
  | (out, len), kv :: kvs, e :: es =>
    (sub e).bind fun tree =>
      if (tree.1.getD (0, Node.empty)).1 = oh - 1 then
        pushInternal sub oh
          (⟨out.kvs ++ [(ck kv.1, cv kv.2)], out.edges ++ [(tree.1.getD (0, Node.empty)).2]⟩, len + 1 + tree.2) kvs es
      else none
  | acc, _, _ => some acc

/-- `clone_subtree`: the root of the tree it returns (a height and a node) and its length field; `None` when a
`push` assertion or the `unwrap` of the first child's root fails -/
def cloneSubtree : ℕ → Node K V → Option (Option (ℕ × Node K V) × ℕ)
  | 0, n => some (some (0, (pushLeaf ck cv (Node.empty, 0) n.kvs).1), (pushLeaf ck cv (Node.empty, 0) n.kvs).2)
  | h + 1, n =>
    (cloneSubtree h (n.edge 0)).bind fun first =>
      first.1.bind fun root =>
        (pushInternal ck cv (cloneSubtree h) (root.1 + 1) (⟨[], [root.2]⟩, first.2) n.kvs (n.edges.drop 1)).map
          fun out => (some (root.1 + 1, out.1), out.2)

/-! ## What `clone_subtree` builds -/

theorem pushLeaf_eq : ∀ (out : Node K V) (len : ℕ) (kvs : List (K × V)),
    pushLeaf ck cv (out, len) kvs = (⟨out.kvs ++ kvs.map fun kv => (ck kv.1, cv kv.2), out.edges⟩, len + kvs.length)
  | ⟨_, _⟩, _, [] => by simp [pushLeaf]
  | out, len, kv :: kvs => by
    rw [pushLeaf, pushLeaf_eq]
    simp only [List.append_assoc, List.singleton_append, List.map_cons, List.length_cons]
    congr 1
    omega

/-- children cloned at height `h` are pushed into a node of height `h + 1`: every assertion holds, and the node
takes the cloned slots and children -/
theorem pushInternal_eq {sub : Node K V → Option (Option (ℕ × Node K V) × ℕ)} {h : ℕ} {w : Node K V → ℕ} :
    ∀ (out : Node K V) (len : ℕ) (kvs : List (K × V)) (es : List (Node K V)), es.length = kvs.length →
      (∀ e ∈ es, sub e = some (some (h, cloneNode ck cv h e), w e)) →
      pushInternal ck cv sub (h + 1) (out, len) kvs es =
        some (⟨out.kvs ++ kvs.map fun kv => (ck kv.1, cv kv.2), out.edges ++ es.map (cloneNode ck cv h)⟩,
          len + kvs.length + (es.map w).sum)
  | ⟨_, _⟩, _, [], [], _, _ => by simp [pushInternal]
  | out, len, kv :: kvs, e :: es, hl, hsub => by
    rw [pushInternal, hsub e (List.mem_cons_self _ _), Option.some_bind]
    dsimp only
    rw [if_pos (by simp), pushInternal_eq _ _ kvs es (by simpa using hl) fun e' he' => hsub e' (List.mem_cons_of_mem _ he')]
    simp only [Option.getD_some, List.append_assoc, List.singleton_append, List.map_cons, List.length_cons,
      List.sum_cons]
    congr 2
    omega
  | _, _, [], _ :: _, hl, _ | _, _, _ :: _, [], hl, _ => by simp at hl

/-- **`clone_subtree` on a subtree in the layout of `node.rs`.** It returns, with every `push` assertion met, a
tree of the same height whose nodes hold the clones of the same pairs with correspondingly cloned children, and a
length field counting the subtree's pairs. -/
theorem cloneSubtree_spec : ∀ (h : ℕ) (n : Node K V), Shaped h n →
    cloneSubtree ck cv h n = some (some (h, cloneNode ck cv h n), (inorder h n).length)
  | 0, n, _ => by simp [cloneSubtree, pushLeaf_eq, cloneNode, Node.empty]
  | h + 1, n, hs => by
    have hall : ∀ e ∈ n.edges, cloneSubtree ck cv h e = some (some (h, cloneNode ck cv h e), (inorder h e).length) :=
      fun e he => cloneSubtree_spec h e (hs.2 e he)
    obtain ⟨e0, es, hes⟩ : ∃ e0 es, n.edges = e0 :: es := List.exists_cons_of_length_pos (by rw [hs.1]; omega)
    have hlen : es.length = n.kvs.length := by simpa [hes, Node.len] using hs.1
    rw [cloneSubtree, show n.edge 0 = e0 by simp [Node.edge, hes], hall e0 (by simp [hes]), Option.some_bind]
    dsimp only
    rw [Option.some_bind, hes, List.drop_one, List.tail_cons,
      pushInternal_eq ck cv _ _ n.kvs es hlen fun e he => hall e (by simp [hes, he])]
    simp only [Option.map_some', List.nil_append, List.singleton_append, inorder_succ, cloneNode, hes, List.map_cons]
    rw [length_weave _ _ _ (by simpa [hes, Node.len] using hs.1)]
    simp only [List.map_cons, List.sum_cons]
    congr 2
    omega

theorem Shaped.cloneNode : ∀ {h : ℕ} {n : Node K V}, Shaped h n → Shaped h (cloneNode ck cv h n)
  | 0, _, _ => rfl
  | _ + 1, _, hs => ⟨by simpa [BtreeMonstrousity.cloneNode, Node.len] using hs.1, by
      simp only [BtreeMonstrousity.cloneNode, List.mem_map]
      rintro _ ⟨e, he, rfl⟩
      exact Shaped.cloneNode (hs.2 e he)⟩

theorem Filled.cloneNode : ∀ {h : ℕ} {n : Node K V}, Filled h n → Filled h (cloneNode ck cv h n)
  | 0, _, hf => by simpa [BtreeMonstrousity.cloneNode, Filled, Node.len] using hf
  | _ + 1, _, hf => ⟨by simpa [BtreeMonstrousity.cloneNode, Node.len] using hf.1, by
      simp only [BtreeMonstrousity.cloneNode, List.mem_map]
      rintro _ ⟨e, he, rfl⟩
      exact Filled.cloneNode (hf.2 e he)⟩

theorem BelowFilled.cloneNode : ∀ {h : ℕ} {n : Node K V}, BelowFilled h n → BelowFilled h (cloneNode ck cv h n)
  | 0, _, _ => trivial
  | _ + 1, _, hf => by
    simp only [BelowFilled, BtreeMonstrousity.cloneNode, List.mem_map]
    rintro _ ⟨e, he, rfl⟩
    exact (hf e he).cloneNode ck cv

theorem weave_cloneNode (h : ℕ)
    (ih : ∀ e : Node K V, inorder h (cloneNode ck cv h e) = (inorder h e).map fun kv => (ck kv.1, cv kv.2)) :
    ∀ (es : List (Node K V)) (kvs : List (K × V)),
      weave (inorder h) (es.map (cloneNode ck cv h)) (kvs.map fun kv => (ck kv.1, cv kv.2)) =
        (weave (inorder h) es kvs).map fun kv => (ck kv.1, cv kv.2)
  | e :: es, kv :: kvs => by simp [weave, ih e, weave_cloneNode h ih es kvs]
  | e :: _, [] => by simp [weave, ih e]
  | [], _ => by simp [weave]

/-- the clone's pairs are the clones of the pairs, in order -/
theorem inorder_cloneNode : ∀ (h : ℕ) (n : Node K V),
    inorder h (cloneNode ck cv h n) = (inorder h n).map fun kv => (ck kv.1, cv kv.2)
  | 0, _ => rfl
  | h + 1, n => weave_cloneNode ck cv h (inorder_cloneNode h) n.edges n.kvs

/-- a tree `clone_subtree` returns for a root is in the layout a root keeps -/
theorem cloneSubtree_root (r : Root K V) {h : ℕ} {n : Node K V} {len : ℕ}
    (hc : cloneSubtree ck cv r.height r.node = some (some (h, n), len)) : Shaped h n ∧ BelowFilled h n := by
  rw [cloneSubtree_spec ck cv _ _ r.shaped] at hc
  obtain ⟨⟨rfl, rfl⟩, -⟩ : (r.height = h ∧ cloneNode ck cv r.height r.node = n) ∧ _ := by simpa using hc
  exact ⟨r.shaped.cloneNode ck cv, r.belowFilled.cloneNode ck cv⟩

/-- `Clone::clone`: `BTreeMap::new_in` for an empty map, else `clone_subtree` of the root; `None` when an assertion
or an `unwrap` fails -/
def BTreeMap.clone (m : BTreeMap K V) : Option (BTreeMap K V) :=
  if m.length = 0 then some BTreeMap.new
  else
    match m.root with
    | none => none
    | some r =>
      match hc : cloneSubtree ck cv r.height r.node with
      | some (some (h, n), len) =>
        some ⟨some ⟨h, n, (cloneSubtree_root ck cv r hc).1, (cloneSubtree_root ck cv r hc).2⟩, len⟩
      | _ => none

/-- a map whose length field counts its entries clones to a map holding the clones of its entries, in order, with
the same length; an empty map clones to a rootless one -/
theorem clone_spec (m : BTreeMap K V) (hlen : m.length = m.entries.length) :
    ∃ m', m.clone ck cv = some m' ∧ m'.entries = m.entries.map (fun kv => (ck kv.1, cv kv.2)) ∧
      m'.length = m.length ∧ (m.length = 0 → m'.root = none) := by
  by_cases h0 : m.length = 0
  · refine ⟨.new, by rw [BTreeMap.clone, if_pos h0], ?_, h0.symm, fun _ => rfl⟩
    rw [List.eq_nil_of_length_eq_zero (hlen.symm.trans h0)]
    rfl
  · rcases m with ⟨_ | r, n⟩
    · exact absurd hlen h0
    · have hc := cloneSubtree_spec ck cv r.height r.node r.shaped
      refine ⟨⟨some ⟨r.height, cloneNode ck cv r.height r.node, r.shaped.cloneNode ck cv,
        r.belowFilled.cloneNode ck cv⟩, r.inorder.length⟩, ?_, inorder_cloneNode ck cv _ _, hlen.symm,
        fun h => absurd h h0⟩
      rw [BTreeMap.clone, if_neg h0]
      dsimp only
      split
      · rename_i h' n' len' hc'
        rw [hc] at hc'
        obtain ⟨⟨rfl, rfl⟩, rfl⟩ : (r.height = h' ∧ cloneNode ck cv r.height r.node = n') ∧ _ := by
          simpa using hc'
        rfl
      · rename_i hne
        exact absurd hc (hne _ _ _)

/-- **`Clone`.** On every subtree in the layout of `node.rs`, `clone_subtree` returns, with every `push` assertion
met, a tree of the same height whose nodes hold the clones of the same pairs in the same order, with
correspondingly cloned children, and whose length field counts the subtree's pairs. A map whose length field
counts its entries clones to a map holding the clones of its entries in the same order, with the same length,
and a map of length 0 to a rootless map. -/
theorem clone_subtree_same_tree (m : BTreeMap K V) (hlen : m.length = m.entries.length) :
    (∀ (h : ℕ) (n : Node K V), Shaped h n →
      cloneSubtree ck cv h n = some (some (h, cloneNode ck cv h n), (inorder h n).length)) ∧
    ∃ m', m.clone ck cv = some m' ∧ m'.entries = m.entries.map (fun kv => (ck kv.1, cv kv.2)) ∧
      m'.length = m.length ∧ (m.length = 0 → m'.root = none) :=
  ⟨cloneSubtree_spec ck cv, clone_spec ck cv m hlen⟩

/-- keys `1, 2, 3` in a tree of height 1: `2` at the root over the leaves `1` and `3` -/
def threeEntries : BTreeMap ℕ ℕ :=
  ⟨some ⟨1, ⟨[(2, 20)], [⟨[(1, 10)], []⟩, ⟨[(3, 30)], []⟩]⟩, ⟨rfl, by simp [Shaped]⟩,
    by simp [BelowFilled, Filled, Node.len]⟩, 3⟩

/-- `threeEntries` clones to a map of the same entries and length -/
theorem clone_subtree_same_tree_three :
    threeEntries.length = threeEntries.entries.length ∧
      ∃ m', threeEntries.clone id id = some m' ∧ m'.entries = [(1, 10), (2, 20), (3, 30)] ∧ m'.length = 3 :=
  ⟨rfl, by
    obtain ⟨m', h1, h2, h3, -⟩ := (clone_subtree_same_tree id id threeEntries rfl).2
    exact ⟨m', h1, h2.trans rfl, h3⟩⟩

end BtreeMonstrousity
