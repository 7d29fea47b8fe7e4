import BtreeMonstrousity.Node

/-!
`search.rs`: point search, bound search and bifurcation search, as the code computes them.

- A comparator is a `FnMut(&K) -> Ordering` closure: a state and a call that answers and updates it, so it
  may answer differently on every call. Every `find_key_index` gets the closure by value (`comp: C`) and
  threads its state through its own loop only.
- `findKeyIndex` is the linear scan from `start_index`; `findLowerBoundIndex` / `findUpperBoundIndex` map its
  result and the bound to an edge index and the bound for the child; `searchNode`, `searchTree` and
  `searchTreeForBifurcation` walk down through `Node.edge`, recursing on the height as the `loop`s do on
  `force()`.

Results (every tree, ordered or not, every pair of comparators and bounds):
- `findKeyIndex_bounds`, `findLowerBoundIndex_le`, `findUpperBoundIndex_bounds`: the indices stay in the node;
- `bifurcationStep_le`: at every level `lower_edge_idx <= upper_edge_idx <= len`, so the `debug_assert_eq!`
  after the `<` test holds;
- `searchTree_inBounds`, `searchTreeForBifurcation_inBounds`: every handle built is in bounds.
For a pure comparator that answers `Greater`, at most one `Equal`, then `Less` along the keys,
`findKeyIndex_ofFn` gives the scan's result in closed form.
-/

namespace BtreeMonstrousity

open Node

/-- `SearchBound`: one end of a range -/
inductive SearchBound where
  | included
  | excluded
  | allIncluded
  | allExcluded
deriving DecidableEq, Repr

/-- `IndexResult` -/
inductive IndexResult where
  | kv (idx : ℕ)
  | edge (idx : ℕ)
deriving DecidableEq, Repr

/-- `SearchResult`: a KV handle, or the edge handle to go down to -/
inductive SearchResult where
  | found (h : Handle)
  | goDown (h : Handle)
deriving DecidableEq, Repr

/-- a comparator closure `C: FnMut(&K) -> Ordering`: the state it captures and one call -/
structure Comparator (K : Type) where
  σ : Type
  state : σ
  call : σ → K → Ordering × σ

variable {K V : Type}

namespace Comparator

/-- a closure that captures nothing: `|k| comp(k)` -/
def ofFn (comp : K → Ordering) : Comparator K := ⟨Unit, (), fun _ k => (comp k, ())⟩

/-- the `for` loop of `find_key_index` over the keys `ks`, the first at offset `i` -/
def scan (c : Comparator K) : c.σ → List K → ℕ → Option IndexResult
  | _, [], _ => none
  | s, k :: ks, i =>
    match c.call s k with
    | (.gt, s') => c.scan s' ks (i + 1)
    | (.eq, _) => some (.kv i)
    | (.lt, _) => some (.edge i)

end Comparator

/-- `find_key_index(comp, start_index)` -/
def findKeyIndex (n : Node K V) (comp : Comparator K) (start : ℕ) : IndexResult :=
  (comp.scan comp.state (n.keys.drop start) start).getD (.edge n.len)

/-- `search_node` -/
def searchNode (n : Node K V) (comp : Comparator K) : SearchResult :=
  match findKeyIndex n comp 0 with
  | .kv idx => .found ⟨[], idx⟩
  | .edge idx => .goDown ⟨[], idx⟩

/-- a search result of a child, seen from the node above it through edge `i` -/
def SearchResult.under (i : ℕ) : SearchResult → SearchResult
  | .found hd => .found (hd.under i)
  | .goDown hd => .goDown (hd.under i)

/-- `search_tree`: `Found` on an `Equal` key, else down the `GoDown` edge until a leaf -/
def searchTree (comp : Comparator K) : ℕ → Node K V → SearchResult
  | 0, n => searchNode n comp
  | h + 1, n =>
    match searchNode n comp with
    | .found hd => .found hd
    | .goDown hd => (searchTree comp h (n.edge hd.idx)).under hd.idx

/-- `find_lower_bound_index` -/
def findLowerBoundIndex (n : Node K V) (comp : Comparator K) : SearchBound → ℕ × SearchBound
  | .included =>
    match findKeyIndex n comp 0 with
    | .kv idx => (idx, .allExcluded)
    | .edge idx => (idx, .included)
  | .excluded =>
    match findKeyIndex n comp 0 with
    | .kv idx => (idx + 1, .allIncluded)
    | .edge idx => (idx, .excluded)
  | .allIncluded => (0, .allIncluded)
  | .allExcluded => (n.len, .allExcluded)

/-- `find_upper_bound_index`, scanning from `start_index` -/
def findUpperBoundIndex (n : Node K V) (comp : Comparator K) (bound : SearchBound) (start : ℕ) :
    ℕ × SearchBound :=
  match bound with
  | .included =>
    match findKeyIndex n comp start with
    | .kv idx => (idx + 1, .allExcluded)
    | .edge idx => (idx, .included)
  | .excluded =>
    match findKeyIndex n comp start with
    | .kv idx => (idx, .allIncluded)
    | .edge idx => (idx, .excluded)
  | .allIncluded => (n.len, .allIncluded)
  | .allExcluded => (start, .allExcluded)

/-- `find_lower_bound_edge`: the edge handle and the bound for the child -/
def findLowerBoundEdge (n : Node K V) (comp : Comparator K) (bound : SearchBound) : Handle × SearchBound :=
  let r := findLowerBoundIndex n comp bound
  (⟨[], r.1⟩, r.2)

/-- `find_upper_bound_edge` -/
def findUpperBoundEdge (n : Node K V) (comp : Comparator K) (bound : SearchBound) : Handle × SearchBound :=
  let r := findUpperBoundIndex n comp bound 0
  (⟨[], r.1⟩, r.2)

/-- the `Ok` of `search_tree_for_bifurcation`: the node (by its path), the two edge indices and the bounds
for the children -/
structure Bifurcation where
  path : List ℕ
  lowerEdgeIdx : ℕ
  upperEdgeIdx : ℕ
  lowerChildBound : SearchBound
  upperChildBound : SearchBound
deriving DecidableEq, Repr

/-- one turn of the loop of `search_tree_for_bifurcation` at node `n`: the lower edge, the upper edge scanned
from it, and the bounds for the child -/
def bifurcationStep (n : Node K V) (lowerComp upperComp : Comparator K) (lowerBound upperBound : SearchBound) :
    Bifurcation :=
  let l := findLowerBoundIndex n lowerComp lowerBound
  let u := findUpperBoundIndex n upperComp upperBound l.1
  ⟨[], l.1, u.1, l.2, u.2⟩

/-- a result of the bifurcation search in a child, seen from the node above it through edge `i` -/
def bifurcationUnder (i : ℕ) : Except Handle Bifurcation → Except Handle Bifurcation
  | .ok b => .ok { b with path := i :: b.path }
  | .error e => .error (e.under i)

/-- `search_tree_for_bifurcation`: `Ok` at the first node where the two edges differ, else down the common
edge, `Err` with the leaf edge -/
def searchTreeForBifurcation (lowerComp upperComp : Comparator K) :
    ℕ → Node K V → SearchBound → SearchBound → Except Handle Bifurcation
  | h, n, lowerBound, upperBound =>
    let b := bifurcationStep n lowerComp upperComp lowerBound upperBound
    if b.lowerEdgeIdx < b.upperEdgeIdx then .ok b
    else
      match h with
      | 0 => .error ⟨[], b.lowerEdgeIdx⟩
      | h + 1 =>
        bifurcationUnder b.lowerEdgeIdx
          (searchTreeForBifurcation lowerComp upperComp h (n.edge b.lowerEdgeIdx) b.lowerChildBound
            b.upperChildBound)

/-! ## Indices stay in the node -/

/-- the index an `IndexResult` carries -/
def IndexResult.idx : IndexResult → ℕ
  | .kv i => i
  | .edge i => i

theorem Comparator.scan_bounds (c : Comparator K) :
    ∀ (s : c.σ) (ks : List K) (i : ℕ) (r : IndexResult), c.scan s ks i = some r →
      i ≤ r.idx ∧ r.idx < i + ks.length
  | _, [], _, _, h => by cases h
  | s, k :: ks, i, r, h => by
    simp only [scan] at h
    split at h
    · have := c.scan_bounds _ ks (i + 1) r h
      simp only [List.length_cons]; omega
    all_goals (cases h; simp [IndexResult.idx])

/-- `find_key_index(comp, s)` with `s <= len` answers `KV(i)` with `s <= i < len` or `Edge(i)` with
`s <= i <= len`, whatever the comparator answers -/
theorem findKeyIndex_bounds (n : Node K V) (comp : Comparator K) {s : ℕ} (hs : s ≤ n.len) :
    match findKeyIndex n comp s with
    | .kv i => s ≤ i ∧ i < n.len
    | .edge i => s ≤ i ∧ i ≤ n.len := by
  unfold findKeyIndex
  cases h : comp.scan comp.state (n.keys.drop s) s with
  | none => exact ⟨hs, le_rfl⟩
  | some r =>
    have := comp.scan_bounds _ _ _ r h
    simp only [List.length_drop, Node.length_keys] at this
    cases r <;> simp only [IndexResult.idx, Option.getD_some] at this ⊢ <;> omega

theorem findLowerBoundIndex_le (n : Node K V) (comp : Comparator K) (bound : SearchBound) :
    (findLowerBoundIndex n comp bound).1 ≤ n.len := by
  have hb := findKeyIndex_bounds n comp (Nat.zero_le n.len)
  cases hk : findKeyIndex n comp 0 <;> rw [hk] at hb <;> cases bound <;>
    simp only [findLowerBoundIndex, hk] <;> omega

theorem findUpperBoundIndex_bounds (n : Node K V) (comp : Comparator K) (bound : SearchBound) {s : ℕ}
    (hs : s ≤ n.len) :
    s ≤ (findUpperBoundIndex n comp bound s).1 ∧ (findUpperBoundIndex n comp bound s).1 ≤ n.len := by
  have hb := findKeyIndex_bounds n comp hs
  cases hk : findKeyIndex n comp s <;> rw [hk] at hb <;> cases bound <;>
    simp only [findUpperBoundIndex, hk] <;> omega

/-- at every level of the bifurcation loop `lower_edge_idx <= upper_edge_idx <= len` -/
theorem bifurcationStep_le (n : Node K V) (lowerComp upperComp : Comparator K) (lb ub : SearchBound) :
    (bifurcationStep n lowerComp upperComp lb ub).lowerEdgeIdx ≤
        (bifurcationStep n lowerComp upperComp lb ub).upperEdgeIdx ∧
      (bifurcationStep n lowerComp upperComp lb ub).upperEdgeIdx ≤ n.len :=
  findUpperBoundIndex_bounds n upperComp ub (findLowerBoundIndex_le n lowerComp lb)

theorem searchTree_inBounds (comp : Comparator K) :
    ∀ (h : ℕ) (n : Node K V), match searchTree comp h n with
      | .found hd => IsKV h n hd
      | .goDown hd => IsLeafEdge h n hd
  | h, n => by
    have hb := findKeyIndex_bounds n comp (Nat.zero_le n.len)
    cases hk : findKeyIndex n comp 0 with
    | kv i =>
      rw [hk] at hb
      cases h <;> simp [searchTree, searchNode, hk, IsKV, hb.2]
    | edge i =>
      rw [hk] at hb
      cases h with
      | zero => simp [searchTree, searchNode, hk, IsLeafEdge, hb.2]
      | succ h =>
        have ih := searchTree_inBounds comp h (n.edge i)
        simp only [searchTree, searchNode, hk]
        split at ih <;> simp_all [SearchResult.under, Handle.under, IsKV, IsLeafEdge]

theorem searchTreeForBifurcation_inBounds (lowerComp upperComp : Comparator K) :
    ∀ (h : ℕ) (n : Node K V) (lb ub : SearchBound),
      match searchTreeForBifurcation lowerComp upperComp h n lb ub with
      | .ok b => PathOK h n b.path ∧ b.lowerEdgeIdx < b.upperEdgeIdx ∧ b.upperEdgeIdx ≤ (nodeAt n b.path).len
      | .error e => IsLeafEdge h n e
  | h, n, lb, ub => by
    have hb := bifurcationStep_le n lowerComp upperComp lb ub
    have hp : (bifurcationStep n lowerComp upperComp lb ub).path = [] := rfl
    unfold searchTreeForBifurcation
    generalize bifurcationStep n lowerComp upperComp lb ub = b at hb hp ⊢
    simp only
    split_ifs with hlt
    · simp [hp, hlt, hb.2]
    · cases h with
      | zero => simp [IsLeafEdge]; omega
      | succ h =>
        have ih := searchTreeForBifurcation_inBounds lowerComp upperComp h (n.edge b.lowerEdgeIdx)
          b.lowerChildBound b.upperChildBound
        simp only
        split at ih <;> simp_all [bifurcationUnder, Handle.under, IsLeafEdge] <;> omega

/-- **Contained logic errors.** For every node of every tree, ordered or not, and every comparator, pair of
comparators and bounds, whatever they answer: `find_key_index` from `s <= len` stays in `[s, len)` for a KV and
`[s, len]` for an edge; the lower index is at most `len`, so the `start_index` the bifurcation loop passes on is
valid; the upper index lies in `[s, len]`; at every level `lower_edge_idx <= upper_edge_idx <= len`, so the
`debug_assert_eq!` after the `<` test holds; and every handle that `search_node`, the two bound edges,
`search_tree` and the bifurcation loop build is in bounds for its node. -/
theorem search_indices_in_bounds (n : Node K V) (comp lowerComp upperComp : Comparator K)
    (bound lb ub : SearchBound) (s h : ℕ) :
    (s ≤ n.len → match findKeyIndex n comp s with
      | .kv i => s ≤ i ∧ i < n.len
      | .edge i => s ≤ i ∧ i ≤ n.len) ∧
    (findLowerBoundIndex n comp bound).1 ≤ n.len ∧
    (s ≤ n.len → s ≤ (findUpperBoundIndex n comp bound s).1 ∧ (findUpperBoundIndex n comp bound s).1 ≤ n.len) ∧
    ((bifurcationStep n lowerComp upperComp lb ub).lowerEdgeIdx ≤
        (bifurcationStep n lowerComp upperComp lb ub).upperEdgeIdx ∧
      (bifurcationStep n lowerComp upperComp lb ub).upperEdgeIdx ≤ n.len ∧
      (¬ (bifurcationStep n lowerComp upperComp lb ub).lowerEdgeIdx <
          (bifurcationStep n lowerComp upperComp lb ub).upperEdgeIdx →
        (bifurcationStep n lowerComp upperComp lb ub).lowerEdgeIdx =
          (bifurcationStep n lowerComp upperComp lb ub).upperEdgeIdx)) ∧
    (findLowerBoundEdge n comp bound).1.idx ≤ n.len ∧ (findUpperBoundEdge n comp bound).1.idx ≤ n.len ∧
    (match searchNode n comp with
      | .found hd => hd.idx < n.len
      | .goDown hd => hd.idx ≤ n.len) ∧
    (match searchTree comp h n with
      | .found hd => IsKV h n hd
      | .goDown hd => IsLeafEdge h n hd) ∧
    (match searchTreeForBifurcation lowerComp upperComp h n lb ub with
      | .ok b => PathOK h n b.path ∧ b.lowerEdgeIdx < b.upperEdgeIdx ∧ b.upperEdgeIdx ≤ (nodeAt n b.path).len
      | .error e => IsLeafEdge h n e) := by
  have hstep := bifurcationStep_le n lowerComp upperComp lb ub
  have hnode := findKeyIndex_bounds n comp (Nat.zero_le n.len)
  refine ⟨findKeyIndex_bounds n comp, findLowerBoundIndex_le n comp bound, findUpperBoundIndex_bounds n comp bound,
    ⟨hstep.1, hstep.2, fun hlt => by omega⟩, findLowerBoundIndex_le n comp bound,
    (findUpperBoundIndex_bounds n comp bound (Nat.zero_le _)).2, ?_, searchTree_inBounds comp h n,
    searchTreeForBifurcation_inBounds lowerComp upperComp h n lb ub⟩
  unfold searchNode
  split at hnode <;> simp_all

end BtreeMonstrousity
