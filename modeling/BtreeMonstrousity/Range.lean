import BtreeMonstrousity.Bifurcation
import BtreeMonstrousity.Iter

/-!
`BTreeMap::range` and its iterator `Range` (`map.rs`), over the leaf range `range_search` finds and
`LeafRange::next_checked` / `next_back_checked` walk (`navigate.rs`, absent from the sources: modelled from the
spec, §4.7: an `Err` of the bifurcation search gives the empty range, an `Ok` the leaf edges the two descents
reach; a step does nothing when the two ends are the same edge, else takes the pair past the front, or before the
back, and moves that end over it).

- `LeafRange`: the borrowed tree and the two ends, both `None` for the empty range.
- `rangeSearch`, `BTreeMap.range`: the leaf range of a root, of a map.
- `Range.next` / `Range.nextBack`: `next_checked` / `next_back_checked`; `min`, `max`, `last`: the overrides.

Results:
- `IsLeafEdge.eq_of_rank_eq`: two leaf edges at one rank are one edge, so `is_empty` (the two ends are equal)
  says exactly that they stand at one gap;
- `LeafRange.nextChecked_spec` / `nextBackChecked_spec`: a range whose ends stand at gaps `f ≤ b` returns the pair
  at `f` (at `b - 1`) and moves that end by one while `f < b`, and `None` once `f = b`, so `Range` is
  `DoubleEnded` (`Range.doubleEnded`) and `Range.run_spec` holds over any interleaving of calls;
- `range_inv`: `range` starts with its ends at the two counts of `Bifurcation`, and `filter_inRange`: the entries
  in range are the entries between them;
- `range_interleaved`: on every map with ascending keys, every interleaving of `next` and `next_back` on
  `range(...)` walks the entries in range from the front and from the back until the two meet.
Witness: `range_interleaved_twoLevel`, the range from the root key `2` of `twoLevel`, included, to `3`, included.
-/

namespace BtreeMonstrousity

open Node

variable {K V : Type}

/-! ## Leaf edges by rank -/

theorem offset_mono (f : Node K V → List (K × V)) (es : List (Node K V)) {i i' : ℕ} (hii : i ≤ i') :
    offset f es i ≤ offset f es i' := by
  obtain ⟨t, ht⟩ := List.take_prefix_take_left es hii
  unfold offset
  rw [← ht, List.map_append, List.sum_append]
  omega

/-- a leaf edge under edge `j` of an internal node stands among the pairs of that edge's subtree -/
theorem rank_cons_bounds {h : ℕ} {n : Node K V} (hs : Shaped (h + 1) n) {j i : ℕ} {p : List ℕ}
    (he : IsLeafEdge (h + 1) n ⟨j :: p, i⟩) :
    offset (inorder h) n.edges j ≤ rank (h + 1) n (j :: p) i ∧
      rank (h + 1) n (j :: p) i < offset (inorder h) n.edges (j + 1) := by
  have hle := rank_le_length h (n.edge j) p i (hs.edge he.1.1) he.1.2 he.2.2
  simp only [edge] at hle
  rw [offset_succ _ (hs.lt_length he.1.1), rank]
  exact ⟨Nat.le_add_right _ _, by simp only [edge]; omega⟩

/-- **Leaf edges by rank.** Two leaf edges of a shaped tree at one rank are one edge. -/
theorem IsLeafEdge.eq_of_rank_eq : ∀ {h : ℕ} {n : Node K V} {e e' : Handle}, Shaped h n → IsLeafEdge h n e →
    IsLeafEdge h n e' → rank h n e.path e.idx = rank h n e'.path e'.idx → e = e'
  | 0, _, ⟨[], _⟩, ⟨[], _⟩, _, _, _, hr => by simpa [rank] using hr
  | h + 1, n, ⟨j :: p, i⟩, ⟨j' :: p', i'⟩, hs, he, he', hr => by
    dsimp only at hr
    have hb := rank_cons_bounds hs he
    have hb' := rank_cons_bounds hs he'
    -- the two edges lie under one edge of the root: the subtrees of different edges are apart
    obtain rfl : j = j' := by
      rcases lt_trichotomy j j' with hlt | heq | hlt
      · have := offset_mono (inorder h) n.edges (show j + 1 ≤ j' from hlt); omega
      · exact heq
      · have := offset_mono (inorder h) n.edges (show j' + 1 ≤ j from hlt); omega
    have hchild : ∀ {q : List ℕ} {k : ℕ}, IsLeafEdge (h + 1) n ⟨j :: q, k⟩ → IsLeafEdge h (n.edge j) ⟨q, k⟩ :=
      fun he => ⟨he.1.2, by simpa using he.2.1, he.2.2⟩
    have := eq_of_rank_eq (hs.edge he.1.1) (hchild he) (hchild he')
      (by simp only [rank] at hr; exact Nat.add_left_cancel hr)
    cases this
    rfl
  | 0, _, ⟨_ :: _, _⟩, _, _, he, _, _ => absurd he.2.1 (by simp)
  | 0, _, ⟨[], _⟩, ⟨_ :: _, _⟩, _, _, he', _ => absurd he'.2.1 (by simp)
  | _ + 1, _, ⟨[], _⟩, _, _, he, _, _ => absurd he.2.1 (by simp)
  | _ + 1, _, ⟨_ :: _, _⟩, ⟨[], _⟩, _, _, he', _ => absurd he'.2.1 (by simp)

/-! ## The leaf range and `Range` -/

/-- Modelled from the spec: `LeafRange`: the front and back leaf edges, both `None` for the empty range. A handle
is a path in the borrowed tree, which the range carries. -/
structure LeafRange (K V : Type) where
  root : Option (Root K V)
  front : Option Handle
  back : Option Handle

namespace LeafRange

/-- `LeafRange::none` -/
def none : LeafRange K V := ⟨.none, .none, .none⟩

/-- Modelled from the spec: `next_checked`: `None` when `is_empty` (the two ends are the same edge); else the pair
right of the front edge (`front.next_kv().ok().unwrap()`), the front moving to the leaf edge after it. The `None`
of a failed `unwrap` is where the source panics. -/
def nextChecked (g : LeafRange K V) : Option (K × V) × LeafRange K V :=
  if g.front = g.back then (.none, g)
  else ((g.root.bind fun r => g.front.bind fun front => (nextKv r.node front).bind fun kv =>
      (kvAt r.node kv).map fun p => (some p, { g with front := some (nextLeafEdge r.height r.node kv) })).getD
    (.none, g))

/-- Modelled from the spec: `next_back_checked`: the pair left of the back edge, the back moving to the leaf edge
before it -/
def nextBackChecked (g : LeafRange K V) : Option (K × V) × LeafRange K V :=
  if g.front = g.back then (.none, g)
  else ((g.root.bind fun r => g.back.bind fun back => (nextBackKv back).bind fun kv =>
      (kvAt r.node kv).map fun p => (some p, { g with back := some (nextBackLeafEdge r.height r.node kv) })).getD
    (.none, g))

end LeafRange

/-- Modelled from the spec: `range_search` (`find_leaf_edges_spanning_range`): the bifurcation search from the
root; on `Err` the empty range, on `Ok` the leaf edges the descents from its two edges reach -/
def rangeSearch (r : Root K V) (lowerComp : Comparator K) (lowerBound : SearchBound) (upperComp : Comparator K)
    (upperBound : SearchBound) : LeafRange K V :=
  match searchTreeForBifurcation lowerComp upperComp r.height r.node lowerBound upperBound with
  | .error _ => LeafRange.none
  | .ok b => ⟨some r, some (b.lowerLeafEdge lowerComp r.height r.node),
      some (b.upperLeafEdge upperComp r.height r.node)⟩

/-- `Range`: the leaf range it walks -/
structure Range (K V : Type) where
  inner : LeafRange K V

/-- `BTreeMap::range`: `range_search` from the root, the empty range for a rootless map -/
def BTreeMap.range (m : BTreeMap K V) (lowerComp : Comparator K) (lowerBound : SearchBound)
    (upperComp : Comparator K) (upperBound : SearchBound) : Range K V :=
  match m.root with
  | some r => ⟨rangeSearch r lowerComp lowerBound upperComp upperBound⟩
  | none => ⟨LeafRange.none⟩

namespace Range

/-- `Range::next`: `next_checked` -/
def next (it : Range K V) : Option (K × V) × Range K V := (it.inner.nextChecked.1, ⟨it.inner.nextChecked.2⟩)

/-- `Range::next_back`: `next_back_checked` -/
def nextBack (it : Range K V) : Option (K × V) × Range K V :=
  (it.inner.nextBackChecked.1, ⟨it.inner.nextBackChecked.2⟩)

/-- one call -/
def step (it : Range K V) : Dir → Option (K × V) × Range K V
  | .next => it.next
  | .nextBack => it.nextBack

/-- the answers of a run of calls, each with its call, and the iterator after them -/
def run (it : Range K V) : List Dir → List (Dir × Option (K × V)) × Range K V
  | [] => ([], it)
  | d :: ds => ((d, (it.step d).1) :: (run (it.step d).2 ds).1, (run (it.step d).2 ds).2)

/-- `Range::min` (the override): `self.next()` -/
def min (it : Range K V) : Option (K × V) := it.next.1

/-- `Range::max` (the override): `self.next_back()` -/
def max (it : Range K V) : Option (K × V) := it.nextBack.1

/-- `Range::last` (the override): `self.next_back()` -/
def last (it : Range K V) : Option (K × V) := it.nextBack.1

end Range

/-! ## Where the ends stand -/

/-- an end of a range over `r`: a leaf edge at gap `pos` -/
def EdgeAt (r : Root K V) (o : Option Handle) (pos : ℕ) : Prop := ∃ e, o = some e ∧ r.IsLeafEdge e ∧ r.rank e = pos

/-- the range over `r` has its front at gap `f` and its back at gap `b`, `f ≤ b ≤ n`: no ends at all when `f = b`,
or leaf edges at those gaps -/
structure LeafRange.Inv (r : Root K V) (g : LeafRange K V) (f b : ℕ) : Prop where
  le : f ≤ b
  le_length : b ≤ r.inorder.length
  ends : (g.front = .none ∧ g.back = .none ∧ f = b) ∨ (g.root = some r ∧ EdgeAt r g.front f ∧ EdgeAt r g.back b)

section Step

variable {r : Root K V} {g : LeafRange K V} {f b : ℕ}

/-- `is_empty`: the two ends are the same edge exactly when they stand at one gap -/
theorem LeafRange.Inv.empty_iff (hI : g.Inv r f b) : g.front = g.back ↔ f = b := by
  rcases hI.ends with ⟨h1, h2, h3⟩ | ⟨-, ⟨e, he, hle, hr⟩, ⟨e', he', hle', hr'⟩⟩
  · simp [h1, h2, h3]
  · rw [he, he', Option.some.injEq]
    exact ⟨fun h => by rw [← hr, ← hr', h],
      fun h => IsLeafEdge.eq_of_rank_eq r.shaped hle hle' (hr.trans (h.trans hr'.symm))⟩

/-- `next_checked`: while `f < b` the pair at `f`, the front moved to `f + 1`; `None` and no move once `f = b` -/
theorem LeafRange.nextChecked_spec (hI : g.Inv r f b) :
    g.nextChecked.1 = (if f < b then r.inorder[f]? else .none) ∧
      g.nextChecked.2.Inv r (if f < b then f + 1 else f) b := by
  by_cases hlt : f < b
  · rcases hI.ends with ⟨-, -, h3⟩ | ⟨hroot, ⟨e, he, hle, rfl⟩, hback⟩
    · omega
    have hne : g.front ≠ g.back := fun h => by have := hI.empty_iff.1 h; omega
    have hf : r.rank e < r.inorder.length := by have := hI.le_length; omega
    obtain ⟨kv, hk, hp, hle', hr'⟩ := r.nextKv_of_lt hle hf
    have hI' : LeafRange.Inv r ⟨some r, some (nextLeafEdge r.height r.node kv), g.back⟩ (r.rank e + 1) b :=
      ⟨hlt, hI.le_length, .inr ⟨rfl, ⟨_, rfl, hle', hr'⟩, hback⟩⟩
    rw [LeafRange.nextChecked, if_neg hne]
    simp only [hroot, he, Option.some_bind, hk, hp, List.getElem?_eq_getElem hf, Option.map_some', Option.getD_some,
      if_pos hlt]
    exact ⟨trivial, hI'⟩
  · simp only [LeafRange.nextChecked, if_pos (hI.empty_iff.2 (by have := hI.le; omega)), if_neg hlt]
    exact ⟨trivial, hI⟩

/-- `next_back_checked`: while `f < b` the pair at `b - 1`, the back moved to `b - 1`; `None` and no move once
`f = b` -/
theorem LeafRange.nextBackChecked_spec (hI : g.Inv r f b) :
    g.nextBackChecked.1 = (if f < b then r.inorder[b - 1]? else .none) ∧
      g.nextBackChecked.2.Inv r f (if f < b then b - 1 else b) := by
  by_cases hlt : f < b
  · rcases hI.ends with ⟨-, -, h3⟩ | ⟨hroot, hfront, ⟨e, he, hle, rfl⟩⟩
    · omega
    have hne : g.front ≠ g.back := fun h => by have := hI.empty_iff.1 h; omega
    have hb : r.rank e - 1 < r.inorder.length := by have := hI.le_length; omega
    obtain ⟨kv, hk, hp, hle', hr'⟩ := r.nextBackKv_of_pos hle (by omega)
    have hI' : LeafRange.Inv r ⟨some r, g.front, some (nextBackLeafEdge r.height r.node kv)⟩ f (r.rank e - 1) :=
      ⟨by omega, by omega, .inr ⟨rfl, hfront, ⟨_, rfl, hle', hr'⟩⟩⟩
    rw [LeafRange.nextBackChecked, if_neg hne]
    simp only [hroot, he, Option.some_bind, hk, hp, List.getElem?_eq_getElem hb, Option.map_some', Option.getD_some,
      if_pos hlt]
    exact ⟨trivial, hI'⟩
  · simp only [LeafRange.nextBackChecked, if_pos (hI.empty_iff.2 (by have := hI.le; omega)), if_neg hlt]
    exact ⟨trivial, hI⟩

end Step

theorem Range.run_eq_runSteps (it : Range K V) : ∀ ds, it.run ds = runSteps Range.step it ds
  | [] => rfl
  | d :: ds => by rw [Range.run, runSteps, Range.run_eq_runSteps _ ds]

/-- `Range` walks the pairs between its ends from both ends -/
theorem Range.doubleEnded (r : Root K V) : DoubleEnded r.inorder (fun it f b => it.inner.Inv r f b) Range.step :=
  ⟨fun hI => hI.le_length, fun hI => hI.le, LeafRange.nextChecked_spec, LeafRange.nextBackChecked_spec⟩

/-- over any run of calls, the front has moved by the `Some`s of `next` and the back by those of `next_back` -/
theorem Range.run_spec {r : Root K V} (ds : List Dir) {it : Range K V} {f b : ℕ} (hI : it.inner.Inv r f b) :
    ∃ b', (it.run ds).2.inner.Inv r (f + countSome .next (it.run ds).1) b' ∧
      b' + countSome .nextBack (it.run ds).1 = b := by
  rw [Range.run_eq_runSteps]
  exact (Range.doubleEnded r).runSteps_spec ds hI

/-! ## The range of a map -/

section Map

variable {κ : Type} [LinearOrder κ] (key : K → κ) (lo hi : κ) (lb ub : SearchBound)

theorem belowCount_le_throughCount (ks : List K) : belowCount key lo lb ks ≤ throughCount key lo hi lb ub ks :=
  List.countP_mono_left fun _ _ h => by simp only [decide_eq_true_eq] at h ⊢; exact .inl h

/-- **`range`.** Its ends start past the keys before the range and past those before its end: the empty range
when the bifurcation search fails, the two counts being then equal -/
theorem range_inv (m : BTreeMap K V) (hA : Ascending key (m.entries.map Prod.fst)) :
    (m.range (Comparator.ofTarget key lo) lb (Comparator.ofTarget key hi) ub).inner.Inv
      (m.root.getD (Root.leaf [])) (belowCount key lo lb (m.entries.map Prod.fst))
      (throughCount key lo hi lb ub (m.entries.map Prod.fst)) := by
  have hle : throughCount key lo hi lb ub (m.entries.map Prod.fst) ≤ m.entries.length :=
    (List.countP_le_length _).trans_eq (List.length_map _ _)
  have hbt := belowCount_le_throughCount key lo hi lb ub (m.entries.map Prod.fst)
  rcases m with ⟨_ | r, n⟩
  · exact ⟨hbt, hle, .inl ⟨rfl, rfl, rfl⟩⟩
  · have hstop := searchTreeForBifurcation_stops key lo hi r.height r.node lb ub r.shaped hA
    show (rangeSearch r _ lb _ ub).Inv r _ _
    unfold rangeSearch
    generalize searchTreeForBifurcation (Comparator.ofTarget key lo) (Comparator.ofTarget key hi) r.height r.node
      lb ub = res at hstop ⊢
    cases res with
    | error e => exact ⟨hbt, hle, .inl ⟨rfl, rfl, hstop.2.2.symm⟩⟩
    | ok b =>
      obtain ⟨lbN, ubN, st⟩ := hstop
      obtain ⟨hlow, hupp, hrl, hru, -, -⟩ := st.leafEdges r.shaped hA
      exact ⟨hbt, hle, .inr ⟨rfl, ⟨_, rfl, hlow, hrl⟩, ⟨_, rfl, hupp, hru⟩⟩⟩

/-- on ascending keys, the entries in range are the run of entries between the two counts -/
theorem filter_inRange {l : List (K × V)} (hA : Ascending key (l.map Prod.fst)) :
    l.filter (fun e => InRange lo hi lb ub (key e.1)) =
      (l.take (throughCount key lo hi lb ub (l.map Prod.fst))).drop (belowCount key lo lb (l.map Prod.fst)) := by
  have hdb : Downward (fun e => ¬ LowerOK lo lb (key e.1)) l := List.pairwise_map.1 (hA.downward_below key lo lb)
  have hdt : Downward (fun e => ¬ LowerOK lo lb (key e.1) ∨ UpperOK hi ub (key e.1)) l :=
    List.pairwise_map.1 (hA.downward_through key lo hi lb ub)
  have hcb : belowCount key lo lb (l.map Prod.fst) = l.countP fun e => ¬ LowerOK lo lb (key e.1) := by
    simp [belowCount, List.countP_map, Function.comp_def]
  have hct : throughCount key lo hi lb ub (l.map Prod.fst) =
      l.countP fun e => ¬ LowerOK lo lb (key e.1) ∨ UpperOK hi ub (key e.1) := by
    simp [throughCount, List.countP_map, Function.comp_def]
  have hbt := belowCount_le_throughCount key lo hi lb ub (l.map Prod.fst)
  have hle : throughCount key lo hi lb ub (l.map Prod.fst) ≤ l.length :=
    (List.countP_le_length _).trans_eq (List.length_map _ _)
  -- in range: before the range's end, and not before the range
  have hsplit : l.filter (fun e => InRange lo hi lb ub (key e.1)) =
      (l.filter fun e => ¬ LowerOK lo lb (key e.1) ∨ UpperOK hi ub (key e.1)).filter
        fun e => !decide (¬ LowerOK lo lb (key e.1)) := by
    rw [List.filter_filter]
    refine List.filter_congr fun e _ => ?_
    by_cases h1 : LowerOK lo lb (key e.1) <;> by_cases h2 : UpperOK hi ub (key e.1) <;> simp [InRange, h1, h2]
  -- up to the range's end the entries before the range are the same prefix
  have hd' : Downward (fun e => ¬ LowerOK lo lb (key e.1)) (l.take (throughCount key lo hi lb ub (l.map Prod.fst))) :=
    hdb.sublist (List.take_sublist _ l)
  have hcount : ((l.take (throughCount key lo hi lb ub (l.map Prod.fst))).countP
      fun e => ¬ LowerOK lo lb (key e.1)) = belowCount key lo lb (l.map Prod.fst) := by
    refine countP_eq_of_cut (by rw [List.length_take]; exact le_min hbt (hbt.trans hle)) (fun e he => ?_)
      fun e he => ?_
    · rw [List.take_take, min_eq_left hbt, hcb] at he
      exact hdb.take_countP e he
    · rw [List.drop_take, hcb] at he
      exact hdb.drop_countP e (List.mem_of_mem_take he)
  rw [hsplit, hdt.filter_eq_take, ← hct, hd'.filter_not_eq_drop, hcount]

/-- **Range iteration.** On every map whose keys ascend under `key`, for every range from `(lo, lb)` to `(hi, ub)`
searched with `|k| compare(lo, k)` and `|k| compare(hi, k)`, inverted and empty ranges included: after any
interleaving of `next` and `next_back` calls on `range(...)`, with `i` `Some`s from `next` and `j` from `next_back`
so far, `i + j` is at most the number of entries in range; while it is below, the next `next` returns the entry of
index `i` among the entries in range and the next `next_back` the entry of index `j` from their end, and once it
reaches it both return `None`. -/
theorem range_interleaved (m : BTreeMap K V) (hA : Ascending key (m.entries.map Prod.fst)) (ds : List Dir)
    (d : Dir) :
    let tr := ((m.range (Comparator.ofTarget key lo) lb (Comparator.ofTarget key hi) ub).run ds).1
    let it := ((m.range (Comparator.ofTarget key lo) lb (Comparator.ofTarget key hi) ub).run ds).2
    let sel := m.entries.filter fun e => InRange lo hi lb ub (key e.1)
    countSome .next tr + countSome .nextBack tr ≤ sel.length ∧
      (it.step d).1 = (if countSome .next tr + countSome .nextBack tr < sel.length then
          (match d with
           | .next => sel[countSome .next tr]?
           | .nextBack => sel[sel.length - 1 - countSome .nextBack tr]?)
        else none) := by
  dsimp only
  obtain ⟨b', hI, hb⟩ := Range.run_spec ds (range_inv key lo hi lb ub m hA)
  have hent : (m.root.getD (Root.leaf [])).inorder = m.entries := by rcases m with ⟨_ | r, n⟩ <;> rfl
  have hle : throughCount key lo hi lb ub (m.entries.map Prod.fst) ≤ m.entries.length :=
    (List.countP_le_length _).trans_eq (List.length_map _ _)
  have hf := hI.le
  rw [filter_inRange key lo hi lb ub hA, List.length_drop, List.length_take, min_eq_left hle]
  set i := countSome .next ((m.range (Comparator.ofTarget key lo) lb (Comparator.ofTarget key hi) ub).run ds).1
  set j := countSome .nextBack ((m.range (Comparator.ofTarget key lo) lb (Comparator.ofTarget key hi) ub).run ds).1
  set a := belowCount key lo lb (m.entries.map Prod.fst)
  set c := throughCount key lo hi lb ub (m.entries.map Prod.fst)
  refine ⟨by omega, ?_⟩
  cases d with
  | next =>
    rw [Range.step, Range.next, (LeafRange.nextChecked_spec hI).1, hent]
    dsimp only
    by_cases hlt : a + i < b'
    · rw [if_pos hlt, if_pos (by omega), List.getElem?_drop, List.getElem?_take_of_lt (by omega)]
    · rw [if_neg hlt, if_neg (by omega)]
  | nextBack =>
    rw [Range.step, Range.nextBack, (LeafRange.nextBackChecked_spec hI).1, hent]
    dsimp only
    by_cases hlt : a + i < b'
    · rw [if_pos hlt, if_pos (by omega), List.getElem?_drop, List.getElem?_take_of_lt (by omega),
        show a + (c - a - 1 - j) = b' - 1 by omega]
    · rw [if_neg hlt, if_neg (by omega)]

end Map

/-- `twoLevel` (`1 | 2 | 3`, the `2` in the root) as a map -/
def twoLevelMap : BTreeMap ℕ ℕ :=
  ⟨some ⟨1, twoLevel, by simp [Shaped, twoLevel, Node.len], by simp [BelowFilled, Filled, twoLevel, Node.len]⟩, 3⟩

/-- on `twoLevel`, the range from the root key `2` to `3`, both included: `next` returns `2`, then `next_back`
returns `3` -/
theorem range_interleaved_twoLevel :
    Ascending id (twoLevelMap.entries.map Prod.fst) ∧
      ((twoLevelMap.range (Comparator.ofTarget id 2) .included (Comparator.ofTarget id 3) .included).run
        [.next]).1 = [(.next, some (2, 0))] ∧
      (((twoLevelMap.range (Comparator.ofTarget id 2) .included (Comparator.ofTarget id 3) .included).run
        [.next]).2.step .nextBack).1 = some (3, 0) :=
  have hA : Ascending id (twoLevelMap.entries.map Prod.fst) := by decide
  ⟨hA, rfl, (range_interleaved id 2 3 .included .included twoLevelMap hA [.next] .nextBack).2.trans rfl⟩

end BtreeMonstrousity
