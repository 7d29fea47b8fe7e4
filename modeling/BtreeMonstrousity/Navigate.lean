import BtreeMonstrousity.Node

/-!
Leaf-to-leaf navigation (`navigate.rs`, absent from the sources; modelled from the spec, §4.7: stepping
sideways through a leaf, up through parent edges when it is exhausted, and down to the next leaf).

- `firstLeafEdge` / `lastLeafEdge`: down the first / last edges to a leaf;
- `rightKv` / `leftKv`: the KV right / left of an edge in the same node;
- `nextKv` / `nextBackKv`: the KV right / left of an edge, ascending while the edge is the node's last / first
  (`Err(root)` as `none` past the end);
- `nextLeafEdge` / `nextBackLeafEdge`: the leaf edge right after / right before a KV.

Results, on every shaped tree, in terms of `rank` (the gap an edge stands for, the position of a KV):
`firstLeafEdge_spec` (gap 0), `lastLeafEdge_spec` (gap `n`), `nextKv_spec` (the KV at the gap, none at `n`),
`nextBackKv_spec` (the KV before the gap, none at 0), `nextLeafEdge_spec` (gap after the KV),
`nextBackLeafEdge_spec` (gap before the KV), `firstKv_spec` and `lastKv_spec` (the first and last slot, when
every node below the root holds one).
-/

namespace BtreeMonstrousity

open Node

variable {K V : Type}

/-- the nodes below the root each hold a slot -/
def BelowFilled : ℕ → Node K V → Prop
  | 0, _ => True
  | h + 1, n => ∀ e ∈ n.edges, Filled h e

/-- a handle of the subtree at `p`, seen from the root -/
def Handle.below (p : List ℕ) (hd : Handle) : Handle := ⟨p ++ hd.path, hd.idx⟩

/-- the pairs before the subtree reached through `path` -/
def pathOffset : ℕ → Node K V → List ℕ → ℕ
  | _, _, [] => 0
  | 0, _, _ :: _ => 0
  | h + 1, n, j :: p => offset (inorder h) n.edges j + pathOffset h (n.edge j) p

/-- the pairs before edge `i` of the node reached through `path`: the gap of a leaf edge, the start of the
edge's subtree for an internal edge -/
def edgeStart : ℕ → Node K V → List ℕ → ℕ → ℕ
  | 0, _, _, i => i
  | h + 1, n, [], i => offset (inorder h) n.edges i
  | h + 1, n, j :: p, i => offset (inorder h) n.edges j + edgeStart h (n.edge j) p i

/-- Modelled from the spec: `first_leaf_edge`, down the first edges -/
def firstLeafEdge : ℕ → Node K V → Handle
  | 0, _ => ⟨[], 0⟩
  | h + 1, n => (firstLeafEdge h (n.edge 0)).under 0

/-- Modelled from the spec: `last_leaf_edge`, down the last edges -/
def lastLeafEdge : ℕ → Node K V → Handle
  | 0, n => ⟨[], n.len⟩
  | h + 1, n => (lastLeafEdge h (n.edge n.len)).under n.len

/-- Modelled from the spec: `right_kv`, the KV right of an edge in its node -/
def rightKv (n : Node K V) (e : Handle) : Option Handle :=
  if e.idx < (nodeAt n e.path).len then some e else none

/-- Modelled from the spec: `left_kv`, the KV left of an edge in its node -/
def leftKv (e : Handle) : Option Handle :=
  if 0 < e.idx then some ⟨e.path, e.idx - 1⟩ else none

/-- `next_kv` from edge `i` of the node at `rp.reverse`: its right KV, else from the parent edge -/
def nextKvUp (n : Node K V) : List ℕ → ℕ → Option Handle
  | rp, i =>
    if i < (nodeAt n rp.reverse).len then some ⟨rp.reverse, i⟩
    else
      match rp with
      | [] => none
      | j :: rp => nextKvUp n rp j

/-- Modelled from the spec: `next_kv`, the KV right of an edge, ascending past last edges -/
def nextKv (n : Node K V) (e : Handle) : Option Handle := nextKvUp n e.path.reverse e.idx

/-- `next_back_kv` from edge `i` of the node at `rp.reverse` -/
def nextBackKvUp : List ℕ → ℕ → Option Handle
  | rp, i =>
    if 0 < i then some ⟨rp.reverse, i - 1⟩
    else
      match rp with
      | [] => none
      | j :: rp => nextBackKvUp rp j

/-- Modelled from the spec: `next_back_kv`, the KV left of an edge, ascending past first edges -/
def nextBackKv (e : Handle) : Option Handle := nextBackKvUp e.path.reverse e.idx

/-- Modelled from the spec: `next_leaf_edge` of a KV, in a tree of height `h` at `n` -/
def nextLeafEdge (h : ℕ) (n : Node K V) (kv : Handle) : Handle :=
  match h - kv.path.length with
  | 0 => ⟨kv.path, kv.idx + 1⟩
  | k + 1 => (firstLeafEdge k ((nodeAt n kv.path).edge (kv.idx + 1))).below (kv.path ++ [kv.idx + 1])

/-- Modelled from the spec: `next_back_leaf_edge` of a KV -/
def nextBackLeafEdge (h : ℕ) (n : Node K V) (kv : Handle) : Handle :=
  match h - kv.path.length with
  | 0 => ⟨kv.path, kv.idx⟩
  | k + 1 => (lastLeafEdge k ((nodeAt n kv.path).edge kv.idx)).below (kv.path ++ [kv.idx])

/-- `into_kv`: the pair a KV handle stands on -/
def kvAt (n : Node K V) (kv : Handle) : Option (K × V) := (nodeAt n kv.path).kvs[kv.idx]?

/-! ## Paths and subtrees -/

theorem Shaped.edge_mem {h : ℕ} {n : Node K V} (hs : Shaped (h + 1) n) {j : ℕ} (hj : j ≤ n.len) :
    n.edge j ∈ n.edges :=
  n.edge_eq_getElem (hs.lt_length hj) ▸ List.getElem_mem ..

theorem PathOK.length_le : ∀ {h : ℕ} {n : Node K V} {p : List ℕ}, PathOK h n p → p.length ≤ h
  | _, _, [], _ => Nat.zero_le _
  | _ + 1, n, j :: _, hp => Nat.succ_le_succ (PathOK.length_le (n := n.edge j) hp.2)
  | 0, _, _ :: _, hp => hp.elim

theorem nodeAt_append (n : Node K V) (p q : List ℕ) : nodeAt n (p ++ q) = nodeAt (nodeAt n p) q := by
  induction p generalizing n with
  | nil => rfl
  | cons j p ih => exact ih _

theorem pathOK_append : ∀ {h : ℕ} {n : Node K V} {p : List ℕ} (q : List ℕ), PathOK h n p →
    (PathOK h n (p ++ q) ↔ PathOK (h - p.length) (nodeAt n p) q)
  | _, _, [], _, _ => Iff.rfl
  | h + 1, n, j :: p, q, hp => by
    simp only [List.cons_append, pathOK_succ_cons, List.length_cons, Nat.add_sub_add_right, nodeAt_cons,
      pathOK_append q hp.2, hp.1, true_and]
  | 0, _, _ :: _, _, hp => hp.elim

theorem Shaped.nodeAt : ∀ {h : ℕ} {n : Node K V} {p : List ℕ}, Shaped h n → PathOK h n p →
    Shaped (h - p.length) (nodeAt n p)
  | _, _, [], hs, _ => hs
  | h + 1, n, j :: p, hs, hp => by
    simpa using Shaped.nodeAt (hs.edge hp.1) hp.2
  | 0, _, _ :: _, _, hp => hp.elim

theorem rank_append : ∀ (h : ℕ) (n : Node K V) (p q : List ℕ) (i : ℕ), PathOK h n p →
    rank h n (p ++ q) i = pathOffset h n p + rank (h - p.length) (nodeAt n p) q i
  | h, n, [], q, i, _ => by simp [pathOffset]
  | h + 1, n, j :: p, q, i, hp => by
    rw [List.cons_append, rank, rank_append h (n.edge j) p q i hp.2, pathOffset]
    simp only [List.length_cons, Nat.add_sub_add_right, nodeAt_cons, add_assoc]
  | 0, _, _ :: _, _, _, hp => hp.elim

theorem edgeStart_append : ∀ (h : ℕ) (n : Node K V) (p q : List ℕ) (i : ℕ), PathOK h n p →
    edgeStart h n (p ++ q) i = pathOffset h n p + edgeStart (h - p.length) (nodeAt n p) q i
  | h, n, [], q, i, _ => by simp [pathOffset]
  | h + 1, n, j :: p, q, i, hp => by
    rw [List.cons_append, edgeStart, edgeStart_append h (n.edge j) p q i hp.2, pathOffset]
    simp only [List.length_cons, Nat.add_sub_add_right, nodeAt_cons, add_assoc]
  | 0, _, _ :: _, _, _, hp => hp.elim

theorem rank_eq_pathOffset {h : ℕ} {n : Node K V} {p : List ℕ} (i : ℕ) (hp : PathOK h n p) :
    rank h n p i = pathOffset h n p + rank (h - p.length) (nodeAt n p) [] i := by
  simpa using rank_append h n p [] i hp

theorem edgeStart_eq_pathOffset {h : ℕ} {n : Node K V} {p : List ℕ} (i : ℕ) (hp : PathOK h n p) :
    edgeStart h n p i = pathOffset h n p + edgeStart (h - p.length) (nodeAt n p) [] i := by
  simpa using edgeStart_append h n p [] i hp

/-- the last edge of a node ends its subtree -/
theorem rank_len : ∀ {h : ℕ} {n : Node K V}, Shaped h n → rank h n [] n.len = (inorder h n).length
  | 0, _, _ => rfl
  | _ + 1, _, hs => offset_last _ _ _ hs.1

theorem offset_succ (f : Node K V → List (K × V)) {es : List (Node K V)} {i : ℕ} (hi : i < es.length) :
    offset f es (i + 1) = offset f es i + (f (es.getD i Node.empty)).length + 1 := by
  rw [offset, offset, List.take_succ, List.getElem?_eq_getElem hi, List.getD_eq_getElem _ _ hi]
  simp only [Option.toList_some, List.map_append, List.map_cons, List.map_nil, List.sum_append, List.sum_cons,
    List.sum_nil]
  omega

/-- a leaf edge's gap is its subtree start -/
theorem edgeStart_eq_rank : ∀ {h : ℕ} {n : Node K V} {p : List ℕ} (i : ℕ), p.length = h →
    edgeStart h n p i = rank h n p i
  | 0, _, _, _, _ => rfl
  | h + 1, n, j :: p, i, hl => by
    simp only [edgeStart, rank, edgeStart_eq_rank (n := n.edge j) i (by simpa using hl)]
  | _ + 1, _, [], _, hl => by simp at hl

theorem pathOffset_append : ∀ {h : ℕ} {n : Node K V} {p : List ℕ} (q : List ℕ), PathOK h n p →
    pathOffset h n (p ++ q) = pathOffset h n p + pathOffset (h - p.length) (nodeAt n p) q
  | _, _, [], _, _ => by simp [pathOffset]
  | h + 1, n, j :: p, q, hp => by
    rw [List.cons_append, pathOffset, pathOffset_append q hp.2, pathOffset]
    simp only [List.length_cons, Nat.add_sub_add_right, nodeAt_cons, add_assoc]
  | 0, _, _ :: _, _, hp => hp.elim

theorem pathOK_snoc : ∀ {h : ℕ} {n : Node K V} {p : List ℕ} {j : ℕ},
    PathOK h n (p ++ [j]) ↔ PathOK h n p ∧ p.length < h ∧ j ≤ (nodeAt n p).len
  | 0, _, [], _ => by simp [PathOK]
  | _ + 1, _, [], _ => by simp
  | 0, _, _ :: _, _ => by simp [PathOK]
  | h + 1, n, i :: p, j => by
    simp only [List.cons_append, pathOK_succ_cons, pathOK_snoc (p := p), List.length_cons, nodeAt_cons,
      Nat.succ_lt_succ_iff, and_assoc]

/-- the subtree below a path of length less than the height is internal -/
theorem exists_height_eq {h : ℕ} {p : List ℕ} (hl : p.length < h) : ∃ k, h - p.length = k + 1 :=
  ⟨h - p.length - 1, by omega⟩

/-- the last edge of a node at `p ++ [j]` ends the subtree of edge `j` of the node at `p` -/
theorem rank_snoc_len {h : ℕ} {n : Node K V} {p : List ℕ} {j : ℕ} (hs : Shaped h n) (hp : PathOK h n (p ++ [j])) :
    rank h n (p ++ [j]) (nodeAt n (p ++ [j])).len = rank h n p j := by
  obtain ⟨hp, hl, hj⟩ := pathOK_snoc.1 hp
  obtain ⟨k, hk⟩ := exists_height_eq hl
  have hsc := hs.nodeAt hp
  rw [hk] at hsc
  rw [rank_append h n p [j] _ hp, rank_eq_pathOffset j hp, hk, nodeAt_append, nodeAt_cons, nodeAt_nil, rank, rank,
    rank_len (hsc.edge hj)]

/-- the first edge of a node at `p ++ [j]` starts the subtree of edge `j` of the node at `p` -/
theorem edgeStart_snoc_zero {h : ℕ} {n : Node K V} {p : List ℕ} {j : ℕ} (hp : PathOK h n (p ++ [j])) :
    edgeStart h n (p ++ [j]) 0 = edgeStart h n p j := by
  obtain ⟨hp, hl, _⟩ := pathOK_snoc.1 hp
  obtain ⟨k, hk⟩ := exists_height_eq hl
  rw [edgeStart_append h n p [j] 0 hp, edgeStart_eq_pathOffset j hp, hk, edgeStart, edgeStart]
  cases k <;> simp [edgeStart]

/-- a KV's rank is one before the start of the edge right after it -/
theorem rank_add_one {k : ℕ} {c : Node K V} (hs : Shaped k c) {i : ℕ} (hi : i < c.len) :
    rank k c [] i + 1 = edgeStart k c [] (i + 1) := by
  cases k with
  | zero => rfl
  | succ k => exact (offset_succ _ (hs.lt_length hi.le)).symm

/-! ## First and last -/

theorem firstLeafEdge_spec : ∀ {h : ℕ} {n : Node K V}, Shaped h n →
    IsLeafEdge h n (firstLeafEdge h n) ∧ rank h n (firstLeafEdge h n).path (firstLeafEdge h n).idx = 0
  | 0, _, _ => ⟨⟨trivial, rfl, Nat.zero_le _⟩, rfl⟩
  | _ + 1, _, hs => by
    obtain ⟨⟨hp, hl, hi⟩, hr⟩ := firstLeafEdge_spec (hs.edge (Nat.zero_le _))
    exact ⟨⟨⟨Nat.zero_le _, hp⟩, by simp [firstLeafEdge, Handle.under, hl], hi⟩,
      by simp [firstLeafEdge, Handle.under, rank, hr]⟩

theorem lastLeafEdge_spec : ∀ {h : ℕ} {n : Node K V}, Shaped h n →
    IsLeafEdge h n (lastLeafEdge h n) ∧
      rank h n (lastLeafEdge h n).path (lastLeafEdge h n).idx = (inorder h n).length
  | 0, _, _ => ⟨⟨trivial, rfl, le_rfl⟩, rfl⟩
  | _ + 1, _, hs => by
    obtain ⟨⟨hp, hl, hi⟩, hr⟩ := lastLeafEdge_spec (hs.edge le_rfl)
    refine ⟨⟨⟨le_rfl, hp⟩, by simp [lastLeafEdge, Handle.under, hl], hi⟩, ?_⟩
    simp only [lastLeafEdge, Handle.under, rank, hr]
    exact offset_last _ _ _ hs.1

/-! ## First and last pairs -/

theorem Filled.firstLeaf_pos : ∀ {h : ℕ} {n : Node K V}, Shaped h n → Filled h n →
    0 < (nodeAt n (firstLeafEdge h n).path).len
  | 0, _, _, hf => hf
  | h + 1, n, hs, hf =>
    Filled.firstLeaf_pos (h := h) (n := n.edge 0) (hs.edge (Nat.zero_le _)) (hf.2 _ (hs.edge_mem (Nat.zero_le _)))

theorem Filled.lastLeafEdge_idx_pos : ∀ {h : ℕ} {n : Node K V}, Shaped h n → Filled h n →
    0 < (lastLeafEdge h n).idx
  | 0, _, _, hf => hf
  | h + 1, n, hs, hf =>
    Filled.lastLeafEdge_idx_pos (h := h) (n := n.edge n.len) (hs.edge le_rfl) (hf.2 _ (hs.edge_mem le_rfl))

section FirstLast

variable {h : ℕ} {n : Node K V}

theorem firstLeafEdge_idx : ∀ {h : ℕ} {n : Node K V}, (firstLeafEdge h n).idx = 0
  | 0, _ => rfl
  | h + 1, n => firstLeafEdge_idx (h := h) (n := n.edge 0)

/-- a non-empty tree whose lower nodes are filled has a pair in its leftmost leaf -/
theorem firstLeaf_pos (hs : Shaped h n) (hf : BelowFilled h n) (hne : inorder h n ≠ []) :
    0 < (nodeAt n (firstLeafEdge h n).path).len := by
  cases h with
  | zero => exact List.length_pos.2 hne
  | succ k => exact Filled.firstLeaf_pos (n := n.edge 0) (hs.edge (Nat.zero_le _)) (hf _ (hs.edge_mem (Nat.zero_le _)))

theorem lastLeafEdge_idx_pos (hs : Shaped h n) (hf : BelowFilled h n) (hne : inorder h n ≠ []) :
    0 < (lastLeafEdge h n).idx := by
  cases h with
  | zero => exact List.length_pos.2 hne
  | succ k => exact Filled.lastLeafEdge_idx_pos (n := n.edge n.len) (hs.edge le_rfl) (hf _ (hs.edge_mem le_rfl))

theorem kvAt_eq_inorder (hs : Shaped h n) {kv : Handle} (hkv : IsKV h n kv) :
    kvAt n kv = (inorder h n)[rank h n kv.path kv.idx]? :=
  (getElem?_inorder_rank h n _ _ hs hkv.1 hkv.2).symm

/-- in a leaf, the gap or position is the leaf's offset plus the index -/
theorem rank_leaf {p : List ℕ} (i : ℕ) (hp : PathOK h n p) (hl : p.length = h) :
    rank h n p i = pathOffset h n p + i := by
  rw [rank_eq_pathOffset i hp, hl, Nat.sub_self]; rfl

/-- **`first_leaf_edge().right_kv()`.** The first slot, at rank 0; none exactly when the tree is empty. -/
theorem firstKv_spec (hs : Shaped h n) (hf : BelowFilled h n) :
    match rightKv n (firstLeafEdge h n) with
    | some kv => IsKV h n kv ∧ rank h n kv.path kv.idx = 0
    | none => inorder h n = [] := by
  obtain ⟨he, hr⟩ := firstLeafEdge_spec hs
  unfold rightKv
  split_ifs with hlt
  · exact ⟨⟨he.1, hlt⟩, hr⟩
  · show inorder h n = []
    rw [firstLeafEdge_idx] at hlt
    by_contra hne
    exact hlt (firstLeaf_pos hs hf hne)

/-- **`last_leaf_edge().left_kv()`.** The last slot, at rank `n - 1`; none exactly when the tree is empty. -/
theorem lastKv_spec (hs : Shaped h n) (hf : BelowFilled h n) :
    match leftKv (lastLeafEdge h n) with
    | some kv => IsKV h n kv ∧ rank h n kv.path kv.idx + 1 = (inorder h n).length
    | none => inorder h n = [] := by
  obtain ⟨⟨hp, hl, hi⟩, hr⟩ := lastLeafEdge_spec hs
  unfold leftKv
  split_ifs with hpos
  · refine ⟨⟨hp, show (lastLeafEdge h n).idx - 1 < (nodeAt n (lastLeafEdge h n).path).len by omega⟩, ?_⟩
    show rank h n _ (_ - 1) + 1 = _
    rw [rank_leaf _ hp hl, ← hr, rank_leaf _ hp hl]
    omega
  · show inorder h n = []
    by_contra hne
    exact hpos (lastLeafEdge_idx_pos hs hf hne)

end FirstLast

/-! ## Stepping -/

section Step

variable {h : ℕ} {n : Node K V}

theorem nextKvUp_spec (hs : Shaped h n) :
    ∀ (rp : List ℕ) (i : ℕ), PathOK h n rp.reverse → i ≤ (nodeAt n rp.reverse).len →
      match nextKvUp n rp i with
      | some kv => IsKV h n kv ∧ rank h n kv.path kv.idx = rank h n rp.reverse i
      | none => rank h n rp.reverse i = (inorder h n).length
  | rp, i, hp, hi => by
    unfold nextKvUp
    split_ifs with hlt
    · exact ⟨⟨hp, hlt⟩, rfl⟩
    · obtain rfl : i = (nodeAt n rp.reverse).len := by omega
      cases rp with
      | nil => exact rank_len hs
      | cons j rp =>
        simp only [List.reverse_cons] at hp ⊢
        have ih := nextKvUp_spec hs rp j (pathOK_snoc.1 hp).1 (pathOK_snoc.1 hp).2.2
        rwa [rank_snoc_len hs hp]

theorem nextBackKvUp_spec (hs : Shaped h n) :
    ∀ (rp : List ℕ) (i : ℕ), PathOK h n rp.reverse → i ≤ (nodeAt n rp.reverse).len →
      match nextBackKvUp rp i with
      | some kv => IsKV h n kv ∧ rank h n kv.path kv.idx + 1 = edgeStart h n rp.reverse i
      | none => edgeStart h n rp.reverse i = 0
  | rp, i, hp, hi => by
    unfold nextBackKvUp
    split_ifs with hlt
    · have hs' := hs.nodeAt hp
      refine ⟨⟨hp, by simp only; omega⟩, ?_⟩
      simp only
      rw [rank_eq_pathOffset _ hp, edgeStart_eq_pathOffset _ hp, add_assoc, rank_add_one hs' (by omega),
        Nat.sub_add_cancel hlt]
    · obtain rfl : i = 0 := by omega
      cases rp with
      | nil =>
        show edgeStart h n [] 0 = 0
        cases h <;> simp [edgeStart]
      | cons j rp =>
        simp only [List.reverse_cons] at hp ⊢
        have ih := nextBackKvUp_spec hs rp j (pathOK_snoc.1 hp).1 (pathOK_snoc.1 hp).2.2
        rwa [edgeStart_snoc_zero hp]

/-- **`next_kv`.** From a leaf edge, the KV at its gap; `none` exactly at the end. -/
theorem nextKv_spec (hs : Shaped h n) {e : Handle} (he : IsLeafEdge h n e) :
    match nextKv n e with
    | some kv => IsKV h n kv ∧ rank h n kv.path kv.idx = rank h n e.path e.idx
    | none => rank h n e.path e.idx = (inorder h n).length := by
  have := nextKvUp_spec hs e.path.reverse e.idx (by simpa using he.1) (by simpa using he.2.2)
  simpa only [List.reverse_reverse] using this

/-- **`next_back_kv`.** From a leaf edge, the KV before its gap; `none` exactly at the start. -/
theorem nextBackKv_spec (hs : Shaped h n) {e : Handle} (he : IsLeafEdge h n e) :
    match nextBackKv e with
    | some kv => IsKV h n kv ∧ rank h n kv.path kv.idx + 1 = rank h n e.path e.idx
    | none => rank h n e.path e.idx = 0 := by
  have := nextBackKvUp_spec hs e.path.reverse e.idx (by simpa using he.1) (by simpa using he.2.2)
  simpa only [List.reverse_reverse, edgeStart_eq_rank _ he.2.1] using this

/-- **`next_leaf_edge`.** The leaf edge right after a KV. -/
theorem nextLeafEdge_spec (hs : Shaped h n) {kv : Handle} (hkv : IsKV h n kv) :
    IsLeafEdge h n (nextLeafEdge h n kv) ∧
      rank h n (nextLeafEdge h n kv).path (nextLeafEdge h n kv).idx = rank h n kv.path kv.idx + 1 := by
  obtain ⟨hp, hi⟩ := hkv
  have hl := hp.length_le
  have hsc := hs.nodeAt hp
  cases hk : h - kv.path.length with
  | zero =>
    simp only [nextLeafEdge, hk]
    refine ⟨⟨hp, show kv.path.length = h by omega, hi⟩, ?_⟩
    rw [rank_eq_pathOffset _ hp, rank_eq_pathOffset _ hp, hk]; rfl
  | succ k =>
    simp only [nextLeafEdge, hk, Handle.below]
    rw [hk] at hsc
    have hp' : PathOK h n (kv.path ++ [kv.idx + 1]) := pathOK_snoc.2 ⟨hp, by omega, hi⟩
    have hl' : (kv.path ++ [kv.idx + 1]).length = kv.path.length + 1 := by simp
    have hk' : h - (kv.path ++ [kv.idx + 1]).length = k := by omega
    obtain ⟨⟨hq, hql, hqi⟩, hr⟩ := firstLeafEdge_spec (hsc.edge (show kv.idx + 1 ≤ _ from hi))
    refine ⟨⟨(pathOK_append _ hp').2 (by rwa [hk', nodeAt_append]), by simp only [List.length_append, hl']; omega,
      by rwa [nodeAt_append, nodeAt_append]⟩, ?_⟩
    rw [rank_append h n _ _ _ hp', hk', nodeAt_append, nodeAt_cons, nodeAt_nil, hr,
      pathOffset_append _ hp, rank_eq_pathOffset _ hp, hk, pathOffset, pathOffset, rank,
      offset_succ _ (hsc.lt_length hi.le)]
    rfl

/-- **`next_back_leaf_edge`.** The leaf edge right before a KV. -/
theorem nextBackLeafEdge_spec (hs : Shaped h n) {kv : Handle} (hkv : IsKV h n kv) :
    IsLeafEdge h n (nextBackLeafEdge h n kv) ∧
      rank h n (nextBackLeafEdge h n kv).path (nextBackLeafEdge h n kv).idx = rank h n kv.path kv.idx := by
  obtain ⟨hp, hi⟩ := hkv
  have hl := hp.length_le
  have hsc := hs.nodeAt hp
  cases hk : h - kv.path.length with
  | zero =>
    simp only [nextBackLeafEdge, hk, and_true]
    exact ⟨hp, show kv.path.length = h by omega, hi.le⟩
  | succ k =>
    simp only [nextBackLeafEdge, hk, Handle.below]
    rw [hk] at hsc
    have hp' : PathOK h n (kv.path ++ [kv.idx]) := pathOK_snoc.2 ⟨hp, by omega, hi.le⟩
    have hl' : (kv.path ++ [kv.idx]).length = kv.path.length + 1 := by simp
    have hk' : h - (kv.path ++ [kv.idx]).length = k := by omega
    obtain ⟨⟨hq, hql, hqi⟩, hr⟩ := lastLeafEdge_spec (hsc.edge hi.le)
    refine ⟨⟨(pathOK_append _ hp').2 (by rwa [hk', nodeAt_append]), by simp only [List.length_append, hl']; omega,
      by rwa [nodeAt_append, nodeAt_append]⟩, ?_⟩
    rw [rank_append h n _ _ _ hp', hk', nodeAt_append, nodeAt_cons, nodeAt_nil, hr,
      pathOffset_append _ hp, rank_eq_pathOffset _ hp, hk, pathOffset, pathOffset, rank]
    omega

end Step

end BtreeMonstrousity
