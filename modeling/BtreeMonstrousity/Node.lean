import Mathlib.Data.List.Infix
import Mathlib.Data.List.Pairwise
import Mathlib.Algebra.BigOperators.Group.List
import Mathlib.Data.List.GetD
import Mathlib.Algebra.Order.Ring.Nat

/-!
Node layer of the B-tree (`node.rs`, absent from the sources): the physical layout of a node, the tree's
in-order contents, and handles into it. MODEL ONLY of the layout the search and map code read through.

- A node holds its key-value slots and, when internal, its edges. As in `NodeRef::force`, whether a node is a
  leaf is told by the height the walk carries, never by the node: every walk recurses on the height.
- `inorder h n`: the pairs of the subtree of height `h` at `n`, left to right.
- `Shaped h n`: the layout `node.rs` maintains: a node of height `h + 1` has one edge more than it has slots,
  each edge heading a subtree of height `h`; a leaf has no edges. All leaves are at the same depth.
- `Filled h n`: every node of the subtree holds a slot (the map keeps every non-root node non-empty).
- A `Handle` is a node reached from the root through edge indices, and an index in it (the arena-style
  handle of the spec's design notes). `rank` is the number of pairs before a handle: for a slot, its
  position in `inorder`; for a leaf edge, the gap it stands for.

Results: `length_inorder`, `getElem_inorder_rank` (a slot handle designates the pair at its rank),
`rank_le_length` (leaf edges stand for gaps `0 ..= n`).
-/

namespace BtreeMonstrousity

/-- a node (`LeafNode` / `InternalNode`): its key-value slots, and its edges when internal -/
structure Node (K V : Type) where
  kvs : List (K × V)
  edges : List (Node K V)
deriving Repr

namespace Node

variable {K V : Type}

/-- the empty leaf (`NodeRef::new_leaf`) -/
def empty : Node K V := ⟨[], []⟩

instance : Inhabited (Node K V) := ⟨empty⟩

/-- `node.len()` -/
def len (n : Node K V) : ℕ := n.kvs.length

/-- `node.keys()` -/
def keys (n : Node K V) : List K := n.kvs.map Prod.fst

/-- the child at edge `i` (`Handle::new_edge(node, i).descend()`) -/
def edge (n : Node K V) (i : ℕ) : Node K V := n.edges.getD i empty

@[simp] theorem length_keys (n : Node K V) : n.keys.length = n.len := by simp [keys, len]

end Node

open Node

variable {K V : Type}

/-- the pairs of an internal node in order, `f` giving the pairs of each child: edge, slot, edge, ... -/
def weave (f : Node K V → List (K × V)) : List (Node K V) → List (K × V) → List (K × V)
  | e :: es, kv :: kvs => f e ++ kv :: weave f es kvs
  | e :: _, [] => f e
  | [], _ => []

/-- the pairs of the subtree of height `h` at `n`, in order -/
def inorder : ℕ → Node K V → List (K × V)
  | 0, n => n.kvs
  | h + 1, n => weave (inorder h) n.edges n.kvs

@[simp] theorem inorder_zero (n : Node K V) : inorder 0 n = n.kvs := rfl

theorem inorder_succ (h : ℕ) (n : Node K V) : inorder (h + 1) n = weave (inorder h) n.edges n.kvs := rfl

/-- the layout of `node.rs`: edges one more than slots, children one level lower, leaves without edges -/
def Shaped : ℕ → Node K V → Prop
  | 0, n => n.edges = []
  | h + 1, n => n.edges.length = n.len + 1 ∧ ∀ e ∈ n.edges, Shaped h e

/-- every node of the subtree holds at least one slot -/
def Filled : ℕ → Node K V → Prop
  | 0, n => 0 < n.len
  | h + 1, n => 0 < n.len ∧ ∀ e ∈ n.edges, Filled h e

/-- the number of pairs of an internal node before its edge `i` -/
def offset (f : Node K V → List (K × V)) (es : List (Node K V)) (i : ℕ) : ℕ :=
  ((es.take i).map fun e => (f e).length).sum + i

/-! ## Weaving -/

section Weave

variable (f : Node K V → List (K × V))

@[simp] theorem offset_zero (es : List (Node K V)) : offset f es 0 = 0 := by simp [offset]

theorem offset_cons_succ (e : Node K V) (es : List (Node K V)) (i : ℕ) :
    offset f (e :: es) (i + 1) = (f e).length + 1 + offset f es i := by
  simp [offset]; omega

theorem length_weave :
    ∀ (es : List (Node K V)) (kvs : List (K × V)), es.length = kvs.length + 1 →
      (weave f es kvs).length = (es.map fun e => (f e).length).sum + kvs.length
  | [e], [], _ => by simp [weave]
  | e :: es, kv :: kvs, h => by
    simp only [List.length_cons, add_left_inj] at h
    simp [weave, length_weave es kvs h]; omega
  | [], _, h | _ :: _ :: _, [], h => by simp at h

/-- past the pairs before edge `i`, an internal node reads as the weave of its remaining edges and slots -/
theorem drop_weave :
    ∀ (es : List (Node K V)) (kvs : List (K × V)) (i : ℕ), i ≤ kvs.length →
      (weave f es kvs).drop (offset f es i) = weave f (es.drop i) (kvs.drop i)
  | _, _, 0, _ => by simp
  | e :: es, kv :: kvs, i + 1, hi => by
    rw [offset_cons_succ, weave, add_assoc, List.drop_append, add_comm, List.drop_succ_cons,
      drop_weave es kvs i (by simpa using hi)]
    rfl
  | [], _, i + 1, _ => by simp [weave]
  | _ :: _, [], i + 1, hi => by simp at hi

theorem weave_drop_of_lt {es : List (Node K V)} {kvs : List (K × V)} {i : ℕ} (hi : i < kvs.length)
    (he : i < es.length) :
    weave f (es.drop i) (kvs.drop i) = f es[i] ++ kvs[i] :: weave f (es.drop (i + 1)) (kvs.drop (i + 1)) := by
  rw [List.drop_eq_getElem_cons he, List.drop_eq_getElem_cons hi, weave]

/-- the pairs before edge `i` and those of edge `i` fit in the node -/
theorem offset_add_le :
    ∀ (es : List (Node K V)) (kvs : List (K × V)) (i : ℕ), i ≤ kvs.length → es.length = kvs.length + 1 →
      offset f es i + (f (es.getD i Node.empty)).length ≤ (weave f es kvs).length
  | [e], [], 0, _, _ => by simp [weave]
  | e :: es, kv :: kvs, 0, _, _ => by simp [weave]
  | e :: es, kv :: kvs, i + 1, hi, he => by
    have := offset_add_le es kvs i (by simpa using hi) (by simpa using he)
    simp only [offset_cons_succ, weave, List.getD_cons_succ, List.length_append, List.length_cons]
    omega
  | [], _, _, _, he | _ :: _ :: _, [], _, _, he => by simp at he
  | [_], [], _ + 1, hi, _ => by simp at hi

/-- the last edge ends the node -/
theorem offset_last :
    ∀ (es : List (Node K V)) (kvs : List (K × V)), es.length = kvs.length + 1 →
      offset f es kvs.length + (f (es.getD kvs.length Node.empty)).length = (weave f es kvs).length
  | [e], [], _ => by simp [weave]
  | e :: es, kv :: kvs, he => by
    have := offset_last es kvs (by simpa using he)
    simp only [List.length_cons, offset_cons_succ, weave, List.getD_cons_succ, List.length_append]
    omega
  | [], _, he | _ :: _ :: _, [], he => by simp at he

end Weave


/-! ## Handles and ranks -/

/-- `Handle<NodeRef<_, K, V, _>, marker::KV | marker::Edge>`: the node reached from the root through the edge
indices `path` (outermost first), and a slot or edge index in it -/
structure Handle where
  path : List ℕ
  idx : ℕ
deriving DecidableEq, Repr

/-- a handle of a child, seen from the node above it through edge `i` -/
def Handle.under (i : ℕ) (hd : Handle) : Handle := ⟨i :: hd.path, hd.idx⟩

/-- the node reached from `n` through `path` -/
def nodeAt (n : Node K V) : List ℕ → Node K V
  | [] => n
  | j :: p => nodeAt (n.edge j) p

/-- every index of `path` is an edge of a node of positive height -/
def PathOK : ℕ → Node K V → List ℕ → Prop
  | _, _, [] => True
  | 0, _, _ :: _ => False
  | h + 1, n, j :: p => j ≤ n.len ∧ PathOK h (n.edge j) p

/-- the pairs before the slot `i` of the node reached through `path`, counting those of its edge `i` when
the node is internal: the rank of a slot, and the gap a leaf edge stands for -/
def rank : ℕ → Node K V → List ℕ → ℕ → ℕ
  | 0, _, _, i => i
  | h + 1, n, [], i => offset (inorder h) n.edges i + (inorder h (n.edge i)).length
  | h + 1, n, j :: p, i => offset (inorder h) n.edges j + rank h (n.edge j) p i

/-- a KV handle of the subtree of height `h` at `n` -/
def IsKV (h : ℕ) (n : Node K V) (hd : Handle) : Prop :=
  PathOK h n hd.path ∧ hd.idx < (nodeAt n hd.path).len

/-- a leaf edge handle of the subtree of height `h` at `n` -/
def IsLeafEdge (h : ℕ) (n : Node K V) (hd : Handle) : Prop :=
  PathOK h n hd.path ∧ hd.path.length = h ∧ hd.idx ≤ (nodeAt n hd.path).len

@[simp] theorem nodeAt_nil (n : Node K V) : nodeAt n [] = n := rfl

@[simp] theorem nodeAt_cons (n : Node K V) (j : ℕ) (p : List ℕ) : nodeAt n (j :: p) = nodeAt (n.edge j) p := rfl

@[simp] theorem pathOK_nil (h : ℕ) (n : Node K V) : PathOK h n [] := by cases h <;> trivial

@[simp] theorem pathOK_succ_cons (h : ℕ) (n : Node K V) (j : ℕ) (p : List ℕ) :
    PathOK (h + 1) n (j :: p) ↔ j ≤ n.len ∧ PathOK h (n.edge j) p := Iff.rfl

theorem Shaped.lt_length {h : ℕ} {n : Node K V} (hs : Shaped (h + 1) n) {j : ℕ} (hj : j ≤ n.len) :
    j < n.edges.length := by
  rw [hs.1]; omega

theorem Node.edge_eq_getElem (n : Node K V) {j : ℕ} (hj : j < n.edges.length) : n.edge j = n.edges[j] :=
  List.getD_eq_getElem ..

theorem Shaped.edge {h : ℕ} {n : Node K V} (hs : Shaped (h + 1) n) {j : ℕ} (hj : j ≤ n.len) :
    Shaped h (n.edge j) :=
  hs.2 _ (n.edge_eq_getElem (hs.lt_length hj) ▸ List.getElem_mem ..)

/-- **Slot handles.** The slot a KV handle designates is the pair at its rank in the in-order contents. -/
theorem getElem?_inorder_rank :
    ∀ (h : ℕ) (n : Node K V) (p : List ℕ) (i : ℕ), Shaped h n → PathOK h n p → i < (nodeAt n p).len →
      (inorder h n)[rank h n p i]? = (nodeAt n p).kvs[i]?
  | 0, n, [], i, _, _, _ => rfl
  | h + 1, n, [], i, hs, _, hi => by
    rw [nodeAt_nil] at hi ⊢
    have he : i < n.edges.length := by rw [hs.1]; exact Nat.lt_succ_of_lt hi
    rw [inorder_succ, rank, ← List.getElem?_drop, drop_weave _ _ _ _ hi.le, weave_drop_of_lt _ hi he,
      n.edge_eq_getElem he, List.getElem?_append_right le_rfl, Nat.sub_self, List.getElem?_cons_zero,
      List.getElem?_eq_getElem hi]
  | h + 1, n, j :: p, i, hs, hp, hi => by
    rw [nodeAt_cons] at hi ⊢
    have hj := hs.lt_length hp.1
    have ih := getElem?_inorder_rank h (n.edge j) p i (hs.edge hp.1) hp.2 hi
    have hlt : rank h (n.edge j) p i < (inorder h (n.edge j)).length := by
      by_contra hc
      rw [List.getElem?_eq_none (by omega), List.getElem?_eq_getElem hi] at ih
      cases ih
    rw [inorder_succ, rank, ← List.getElem?_drop, drop_weave _ _ _ _ hp.1,
      List.drop_eq_getElem_cons hj, ← n.edge_eq_getElem hj]
    cases n.kvs.drop j <;> simpa [weave, List.getElem?_append_left hlt] using ih
  | 0, _, _ :: _, _, _, hp, _ => hp.elim

/-- Every handle's rank, slot or edge, is at most the number of pairs. -/
theorem rank_le_length :
    ∀ (h : ℕ) (n : Node K V) (p : List ℕ) (i : ℕ), Shaped h n → PathOK h n p → i ≤ (nodeAt n p).len →
      rank h n p i ≤ (inorder h n).length
  | 0, n, [], i, _, _, hi => hi
  | h + 1, n, [], i, hs, _, hi => offset_add_le _ _ _ _ hi (by rw [hs.1]; rfl)
  | h + 1, n, j :: p, i, hs, hp, hi => by
    have ih := rank_le_length h (n.edge j) p i (hs.edge hp.1) hp.2 hi
    have := offset_add_le (inorder h) n.edges n.kvs j hp.1 (by rw [hs.1]; rfl)
    rw [inorder_succ, rank]
    exact (Nat.add_le_add_left ih _).trans this
  | 0, _, _ :: _, _, _, hp, _ => hp.elim

end BtreeMonstrousity
