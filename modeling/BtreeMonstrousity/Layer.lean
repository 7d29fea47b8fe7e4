import BtreeMonstrousity.Navigate

/-!
The node layer as the map sees it (`node.rs`, `remove.rs`, `fix.rs`, absent from the sources).

- `Root`: an owned root (`Root<K, V>`) with its height. It carries the layout `node.rs` keeps as fields
  (`Shaped`, and every node below the root non-empty), so a root in any other layout cannot be built.
- `writeAt`: a write through a slot handle (`kv_mut`, `key_mut`, `into_val_mut`), modelled in full:
  `inorder_writeAt` (it changes the pair at the slot's rank, and nothing else). `setVal` is the write
  `OccupiedEntry::insert` makes, `setKey` the one `Recover::replace` makes.
- `NodeLayer`: Modelled from the spec: the two restructuring mutations, `insert_recursing` (splits, and a root
  grown by `push_internal_level`) and `remove_kv_tracking` (steals, merges, and a root shrunk by
  `pop_internal_level`), bundled with their meaning on the in-order sequence: insertion of the pair at the leaf
  edge's gap, removal of the slot's pair, and where the handles they return stand.
- `flatLayer`: a node layer that keeps each tree as one leaf, so the contract can be met.
-/

namespace BtreeMonstrousity

open Node

variable {K V : Type}

/-! ## Editing one element of a list -/

section Modify

variable {α : Type} (g : α → α)

theorem modify_append_of_lt : ∀ {A : List α} (B : List α) {i : ℕ}, i < A.length →
    (A ++ B).modify g i = A.modify g i ++ B
  | _ :: _, _, 0, _ => by simp
  | _ :: A, B, i + 1, hi => by
    simp [modify_append_of_lt (A := A) B (Nat.lt_of_succ_lt_succ hi)]

theorem modify_append_add : ∀ (A B : List α) (i : ℕ), (A ++ B).modify g (A.length + i) = A ++ B.modify g i
  | [], _, _ => by simp
  | a :: A, B, i => by
    rw [List.cons_append, List.length_cons, Nat.add_right_comm, List.modify_succ_cons, modify_append_add A B i]
    rfl

theorem modify_append_length (A : List α) (b : α) (B : List α) : (A ++ b :: B).modify g A.length = A ++ g b :: B := by
  simpa using modify_append_add g A (b :: B) 0

theorem forall_mem_modify {P : α → Prop} : ∀ {l : List α} (j : ℕ), (∀ x ∈ l, P x) → (∀ x ∈ l, P (g x)) →
    ∀ y ∈ l.modify g j, P y
  | [], _, _, _ => by simp
  | a :: l, 0, h1, h2 => by
    rw [List.modify_zero_cons]
    exact List.forall_mem_cons.2 ⟨h2 a (List.mem_cons_self _ _), fun y hy => h1 y (List.mem_cons_of_mem _ hy)⟩
  | a :: l, j + 1, h1, h2 => by
    rw [List.modify_succ_cons]
    exact List.forall_mem_cons.2 ⟨h1 a (List.mem_cons_self _ _), forall_mem_modify j
      (fun x hx => h1 x (List.mem_cons_of_mem _ hx)) (fun x hx => h2 x (List.mem_cons_of_mem _ hx))⟩

end Modify

/-! ## Writing through a slot handle -/

/-- a write through a slot handle: slot `i` of the node at `path` takes `g` of its pair -/
def writeAt (g : K × V → K × V) : List ℕ → ℕ → Node K V → Node K V
  | [], i, n => ⟨n.kvs.modify g i, n.edges⟩
  | j :: p, i, n => ⟨n.kvs, n.edges.modify (writeAt g p i) j⟩

section Weave

variable (f : Node K V → List (K × V)) (g : K × V → K × V)

/-- a slot edited in place is the pair edited at its place in the weave -/
theorem weave_modify_kvs :
    ∀ (es : List (Node K V)) (kvs : List (K × V)) (i : ℕ), i < kvs.length →
      weave f es (kvs.modify g i) = (weave f es kvs).modify g (offset f es i + (f (es.getD i Node.empty)).length)
  | [], _, _, _ => by simp [weave]
  | _ :: _, _ :: _, 0, _ => by simp [weave, modify_append_length]
  | e :: es, kv :: kvs, i + 1, hi => by
    rw [List.modify_succ_cons, weave, weave, weave_modify_kvs es kvs i (Nat.lt_of_succ_lt_succ hi),
      offset_cons_succ, List.getD_cons_succ, add_assoc, add_assoc, modify_append_add, add_comm 1,
      List.modify_succ_cons]
  | _ :: _, [], _, hi => by simp at hi

/-- a child edited at its position `r` is the pair edited at the child's offset plus `r` -/
theorem weave_modify_edge (φ : Node K V → Node K V) (r : ℕ) :
    ∀ (es : List (Node K V)) (kvs : List (K × V)) (j : ℕ), es.length = kvs.length + 1 → j < es.length →
      f (φ (es.getD j Node.empty)) = (f (es.getD j Node.empty)).modify g r → r < (f (es.getD j Node.empty)).length →
      weave f (es.modify φ j) kvs = (weave f es kvs).modify g (offset f es j + r)
  | e :: _, [], 0, _, _, hφ, _ => by simpa [weave] using hφ
  | e :: _, _ :: _, 0, _, _, hφ, hr => by
    simp only [List.getD_cons_zero] at hφ hr
    rw [List.modify_zero_cons, weave, weave, hφ, offset_zero, zero_add, modify_append_of_lt _ _ hr]
  | e :: es, kv :: kvs, j + 1, hl, hj, hφ, hr => by
    have hix : offset f (e :: es) (j + 1) + r = (f e).length + (offset f es j + r + 1) := by
      rw [offset_cons_succ]; omega
    rw [List.modify_succ_cons, weave, weave,
      weave_modify_edge φ r es kvs j (by simpa using hl) (by simpa using hj) hφ hr, hix, modify_append_add,
      List.modify_succ_cons]
  | [], _, _, _, hj, _, _ => by simp at hj
  | _ :: _, [], _ + 1, hl, hj, _, _ => by simp at hl; simp [hl] at hj

end Weave

/-- a slot's rank is a position of the in-order sequence -/
theorem rank_lt_length {h : ℕ} {n : Node K V} {p : List ℕ} {i : ℕ} (hs : Shaped h n) (hp : PathOK h n p)
    (hi : i < (nodeAt n p).len) : rank h n p i < (inorder h n).length := by
  have := getElem?_inorder_rank h n p i hs hp hi
  rw [List.getElem?_eq_getElem hi] at this
  exact (List.getElem?_eq_some_iff.1 this).1

section Write

variable (g : K × V → K × V)

/-- **A write through a slot.** It replaces the pair at the slot's rank by `g` of it and leaves every other pair
as it was. -/
theorem inorder_writeAt : ∀ (h : ℕ) (n : Node K V) (p : List ℕ) (i : ℕ), Shaped h n → PathOK h n p →
    i < (nodeAt n p).len → inorder h (writeAt g p i n) = (inorder h n).modify g (rank h n p i)
  | 0, _, [], _, _, _, _ => rfl
  | h + 1, n, [], i, _, _, hi => weave_modify_kvs (inorder h) _ n.edges n.kvs i hi
  | h + 1, n, j :: p, i, hs, hp, hi =>
    weave_modify_edge (inorder h) _ (writeAt g p i) _ n.edges n.kvs j hs.1 (hs.lt_length hp.1)
      (inorder_writeAt h (n.edge j) p i (hs.edge hp.1) hp.2 hi) (rank_lt_length (hs.edge hp.1) hp.2 hi)
  | 0, _, _ :: _, _, _, hp, _ => hp.elim

theorem Shaped.writeAt : ∀ {h : ℕ} {n : Node K V} (p : List ℕ) (i : ℕ), Shaped h n →
    Shaped h (writeAt g p i n)
  | 0, _, [], _, hs => hs
  | _ + 1, _, [], _, hs => ⟨by simpa [BtreeMonstrousity.writeAt, Node.len] using hs.1, hs.2⟩
  | 0, n, _ :: _, _, hs => show n.edges.modify _ _ = [] by rw [show n.edges = [] from hs]; simp
  | _ + 1, n, j :: p, i, hs =>
    ⟨by simpa [BtreeMonstrousity.writeAt, Node.len] using hs.1,
      forall_mem_modify _ j hs.2 fun e he => Shaped.writeAt p i (hs.2 e he)⟩

theorem Filled.writeAt : ∀ {h : ℕ} {n : Node K V} (p : List ℕ) (i : ℕ), Filled h n →
    Filled h (writeAt g p i n)
  | 0, _, [], _, hf => by simpa [BtreeMonstrousity.writeAt, Filled, Node.len] using hf
  | _ + 1, _, [], _, hf => ⟨by simpa [BtreeMonstrousity.writeAt, Node.len] using hf.1, hf.2⟩
  | 0, _, _ :: _, _, hf => hf
  | _ + 1, _, j :: p, i, hf => ⟨hf.1, forall_mem_modify _ j hf.2 fun e he => Filled.writeAt p i (hf.2 e he)⟩

theorem BelowFilled.writeAt : ∀ {h : ℕ} {n : Node K V} (p : List ℕ) (i : ℕ), BelowFilled h n →
    BelowFilled h (writeAt g p i n)
  | 0, _, _, _, _ => trivial
  | _ + 1, _, [], _, hf => hf
  | _ + 1, _, j :: p, i, hf => forall_mem_modify _ j hf fun e he => Filled.writeAt g p i (hf e he)

/-- a write changes no slot count and no child it does not go through -/
theorem len_writeAt : ∀ (p : List ℕ) (i : ℕ) (n : Node K V), (writeAt g p i n).len = n.len
  | [], _, _ => List.length_modify _ _ _
  | _ :: _, _, _ => rfl

theorem writeAt_empty (p : List ℕ) (i : ℕ) : writeAt g p i (Node.empty : Node K V) = Node.empty := by
  cases p <;> simp [writeAt, Node.empty]

theorem edge_writeAt (j : ℕ) (p : List ℕ) (i : ℕ) (n : Node K V) :
    (writeAt g (j :: p) i n).edge j = writeAt g p i (n.edge j) := by
  simp only [writeAt, Node.edge, List.getD_eq_getElem?_getD, List.getElem?_modify]
  cases n.edges[j]? <;> simp [writeAt_empty]

/-- the slot written through stays a slot -/
theorem isKV_writeAt : ∀ {h : ℕ} {n : Node K V} {p : List ℕ} {i : ℕ}, IsKV h n ⟨p, i⟩ →
    IsKV h (writeAt g p i n) ⟨p, i⟩
  | _, _, [], _, ⟨_, hi⟩ => ⟨pathOK_nil _ _, by simpa [len_writeAt] using hi⟩
  | _ + 1, n, j :: p, _, ⟨hp, hi⟩ => by
    obtain ⟨hp', hi'⟩ := isKV_writeAt (show IsKV _ (n.edge j) ⟨p, _⟩ from ⟨hp.2, hi⟩)
    exact ⟨⟨by rw [len_writeAt]; exact hp.1, by rw [edge_writeAt]; exact hp'⟩, by simpa [edge_writeAt] using hi'⟩
  | 0, _, _ :: _, _, ⟨hp, _⟩ => hp.elim

/-- and keeps its rank: the children before it on its path are untouched -/
theorem rank_writeAt : ∀ (h : ℕ) (n : Node K V) (p : List ℕ) (i : ℕ),
    rank h (writeAt g p i n) p i = rank h n p i
  | 0, _, _, _ => rfl
  | _ + 1, _, [], _ => rfl
  | h + 1, n, j :: p, i => by
    rw [rank, rank, edge_writeAt, rank_writeAt h _ p i]
    simp only [offset, writeAt, List.take_modify, List.modify_eq_self (by simp : (n.edges.take j).length ≤ j)]

end Write

/-! ## Roots -/

/-- an owned root (`Root<K, V>`): its height and node, in the layout `node.rs` keeps -/
structure Root (K V : Type) where
  height : ℕ
  node : Node K V
  shaped : Shaped height node
  belowFilled : BelowFilled height node

namespace Root

variable (r : Root K V)

/-- the root's pairs in order -/
def inorder : List (K × V) := BtreeMonstrousity.inorder r.height r.node

/-- the number of pairs before a handle of the root's tree -/
def rank (hd : Handle) : ℕ := BtreeMonstrousity.rank r.height r.node hd.path hd.idx

/-- a slot handle of the root's tree -/
def IsKV (hd : Handle) : Prop := BtreeMonstrousity.IsKV r.height r.node hd

/-- a leaf edge handle of the root's tree -/
def IsLeafEdge (hd : Handle) : Prop := BtreeMonstrousity.IsLeafEdge r.height r.node hd

/-- `NodeRef::new_leaf` holding `kvs` -/
def leaf (kvs : List (K × V)) : Root K V := ⟨0, ⟨kvs, []⟩, rfl, trivial⟩

/-- the root after a write through the slot `hd` (`kv_mut`): its pair becomes `g` of itself -/
def writeAt (hd : Handle) (g : K × V → K × V) : Root K V :=
  ⟨r.height, BtreeMonstrousity.writeAt g hd.path hd.idx r.node, r.shaped.writeAt _ _ _, r.belowFilled.writeAt _ _ _⟩

/-- the root after `*slot.into_val_mut() = v` -/
def setVal (hd : Handle) (v : V) : Root K V := r.writeAt hd fun kv => (kv.1, v)

/-- the root after `mem::replace(slot.key_mut(), k)` -/
def setKey (hd : Handle) (k : K) : Root K V := r.writeAt hd fun kv => (k, kv.2)

@[simp] theorem inorder_leaf (kvs : List (K × V)) : (leaf kvs).inorder = kvs := rfl

variable {r}

theorem kvAt_eq {hd : Handle} (h : r.IsKV hd) : kvAt r.node hd = r.inorder[r.rank hd]? :=
  kvAt_eq_inorder r.shaped h

theorem rank_lt {hd : Handle} (h : r.IsKV hd) : r.rank hd < r.inorder.length := rank_lt_length r.shaped h.1 h.2

theorem rank_le {hd : Handle} (h : r.IsLeafEdge hd) : r.rank hd ≤ r.inorder.length :=
  rank_le_length _ _ _ _ r.shaped h.1 h.2.2

/-- a write through a slot changes the pair at its rank, and nothing else -/
theorem inorder_writeAt {hd : Handle} (h : r.IsKV hd) (g : K × V → K × V) :
    (r.writeAt hd g).inorder = r.inorder.modify g (r.rank hd) :=
  BtreeMonstrousity.inorder_writeAt g _ _ _ _ r.shaped h.1 h.2

theorem isKV_writeAt {hd : Handle} (h : r.IsKV hd) (g : K × V → K × V) : (r.writeAt hd g).IsKV hd :=
  BtreeMonstrousity.isKV_writeAt g h

@[simp] theorem rank_writeAt (hd : Handle) (g : K × V → K × V) : (r.writeAt hd g).rank hd = r.rank hd :=
  BtreeMonstrousity.rank_writeAt g _ _ _ _

/-- writing `v` through a slot replaces the value of the pair at the slot's rank and leaves every other pair, and
every key, as it was -/
theorem inorder_setVal {hd : Handle} (h : r.IsKV hd) (v : V) :
    (r.setVal hd v).inorder = r.inorder.modify (fun kv => (kv.1, v)) (r.rank hd) :=
  inorder_writeAt h _

theorem isKV_setVal {hd : Handle} (h : r.IsKV hd) (v : V) : (r.setVal hd v).IsKV hd := isKV_writeAt h _

@[simp] theorem rank_setVal (hd : Handle) (v : V) : (r.setVal hd v).rank hd = r.rank hd := rank_writeAt hd _

/-- a leaf edge short of the end steps over the pair at its gap: `next_kv` finds that pair's slot and
`next_leaf_edge` the leaf edge one gap on -/
theorem nextKv_of_lt {e : Handle} (he : r.IsLeafEdge e) (hlt : r.rank e < r.inorder.length) :
    ∃ kv, nextKv r.node e = some kv ∧ kvAt r.node kv = r.inorder[r.rank e]? ∧
      r.IsLeafEdge (nextLeafEdge r.height r.node kv) ∧ r.rank (nextLeafEdge r.height r.node kv) = r.rank e + 1 := by
  have hn := nextKv_spec r.shaped he
  generalize nextKv r.node e = res at hn ⊢
  cases res with
  | none => exact absurd hn hlt.ne
  | some kv =>
    have hr : r.rank kv = r.rank e := hn.2
    obtain ⟨hle, hnr⟩ := nextLeafEdge_spec r.shaped hn.1
    exact ⟨kv, rfl, by rw [r.kvAt_eq hn.1, hr], hle, hnr.trans (congrArg (· + 1) hr)⟩

/-- a leaf edge past the start steps back over the pair before its gap: `next_back_kv` finds that pair's slot and
`next_back_leaf_edge` the leaf edge one gap back -/
theorem nextBackKv_of_pos {e : Handle} (he : r.IsLeafEdge e) (hpos : 0 < r.rank e) :
    ∃ kv, nextBackKv e = some kv ∧ kvAt r.node kv = r.inorder[r.rank e - 1]? ∧
      r.IsLeafEdge (nextBackLeafEdge r.height r.node kv) ∧
      r.rank (nextBackLeafEdge r.height r.node kv) = r.rank e - 1 := by
  have hn := nextBackKv_spec r.shaped he
  generalize nextBackKv e = res at hn ⊢
  cases res with
  | none => exact absurd hn hpos.ne'
  | some kv =>
    have hr : r.rank kv = r.rank e - 1 := by have : r.rank kv + 1 = r.rank e := hn.2; omega
    obtain ⟨hle, hnr⟩ := nextBackLeafEdge_spec r.shaped hn.1
    exact ⟨kv, rfl, by rw [r.kvAt_eq hn.1, hr], hle, hnr.trans hr⟩

end Root

/-! ## The node layer's contract -/

/-- Modelled from the spec: the node layer's restructuring mutations, at their in-order meaning.
`insertRecursing r e k v` puts `(k, v)` at the leaf edge `e`, splitting full nodes up the path and growing the
root by `push_internal_level` when it splits; it returns the new root and the new slot. `removeKvTracking r kv`
removes the slot `kv` (through its in-order neighbour's leaf slot when `kv` is internal), stealing or merging
underfull nodes and popping an emptied internal root; it returns the pair, the new root and the leaf edge where
the slot stood. -/
structure NodeLayer (K V : Type) where
  insertRecursing : Root K V → Handle → K → V → Root K V × Handle
  removeKvTracking : Root K V → Handle → Option (K × V) × Root K V × Handle
  /-- the pair lands at the edge's gap -/
  insert_inorder : ∀ r e k v, Root.IsLeafEdge r e →
    (insertRecursing r e k v).1.inorder = r.inorder.take (r.rank e) ++ (k, v) :: r.inorder.drop (r.rank e)
  /-- the returned handle is the new slot, in a leaf -/
  insert_handle : ∀ r e k v, Root.IsLeafEdge r e →
    (insertRecursing r e k v).1.IsKV (insertRecursing r e k v).2 ∧
      (insertRecursing r e k v).2.path.length = (insertRecursing r e k v).1.height ∧
      (insertRecursing r e k v).1.rank (insertRecursing r e k v).2 = r.rank e
  /-- the removed pair is the slot's -/
  remove_pair : ∀ r kv, Root.IsKV r kv → (removeKvTracking r kv).1 = kvAt r.node kv
  /-- the slot's pair leaves the in-order sequence -/
  remove_inorder : ∀ r kv, Root.IsKV r kv →
    (removeKvTracking r kv).2.1.inorder = r.inorder.take (r.rank kv) ++ r.inorder.drop (r.rank kv + 1)
  /-- the returned edge stands where the slot stood -/
  remove_handle : ∀ r kv, Root.IsKV r kv →
    (removeKvTracking r kv).2.1.IsLeafEdge (removeKvTracking r kv).2.2 ∧
      (removeKvTracking r kv).2.1.rank (removeKvTracking r kv).2.2 = r.rank kv

/-- a node layer that rebuilds every tree as one leaf -/
def flatLayer : NodeLayer K V where
  insertRecursing r e k v :=
    (Root.leaf (r.inorder.take (r.rank e) ++ (k, v) :: r.inorder.drop (r.rank e)), ⟨[], r.rank e⟩)
  removeKvTracking r kv :=
    (kvAt r.node kv, Root.leaf (r.inorder.take (r.rank kv) ++ r.inorder.drop (r.rank kv + 1)), ⟨[], r.rank kv⟩)
  insert_inorder _ _ _ _ _ := rfl
  insert_handle r _ _ _ he := ⟨⟨trivial, by have := r.rank_le he; simp [Root.leaf, Node.len]; omega⟩, rfl, rfl⟩
  remove_pair _ _ _ := rfl
  remove_inorder _ _ _ := rfl
  remove_handle r _ hkv := ⟨⟨trivial, rfl, by have := r.rank_lt hkv; simp [Root.leaf, Node.len]; omega⟩, rfl⟩

end BtreeMonstrousity
