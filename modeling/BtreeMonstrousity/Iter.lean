import BtreeMonstrousity.Map
import Mathlib.Data.Prod.Lex

/-!
Double-ended iteration over a whole map (`map.rs`): `Iter`, `IterMut`, `IntoIter`, `Keys` and `Values`, over a lazy
leaf range (`navigate.rs`, absent from the sources; modelled from the spec: the two ends start at the root, descend
to the first / last leaf edge on first use, and step leaf edge to leaf edge through `next_kv` / `next_back_kv`).

- `LazyLeafRange`: the front and back ends, each the root or a leaf edge of the borrowed tree (a Rust handle
  carries its node pointer; here each end carries its tree). Over a dying tree (`IntoIter`) the deallocating steps
  walk the same way, and `deallocating_end` takes the front.
- `Iter`, `IterMut`, `IntoIter`: the range and the count of entries left; `next` / `next_back` call the unchecked
  steps only while the count is positive. `IterMut` runs `Iter`'s bodies on its own fields; `IntoIter`'s
  `dying_next` / `dying_next_back` differ in one branch: with nothing left they call `deallocating_end`.
  `Keys` and `Values` wrap an `Iter` and keep one side of its pairs.
- `Iter.min` / `Iter.max`: the overrides, `self.next()` / `self.next_back()`; `iterMin` / `iterMax`: what
  `Iterator::min` / `max` return, the first least / last greatest item under the items' own order.

Results:
- `Iter.next_spec` / `Iter.nextBack_spec`: an iterator whose ends stand at gaps `f ≤ b` with `b - f` left
  returns the pair at `f` (at `b - 1`) and moves that end by one while `f < b`, and `None` once `f = b`;
- `DoubleEnded.runSteps_spec`: for any iterator whose calls walk a list from both ends (`DoubleEnded`), over any
  interleaving of calls the front has moved by the `Some`s of `next` and the back by those of `next_back`, and
  `DoubleEnded.interleaves` gives from it the law of the calls (`Interleaves`);
- `DoubleEnded.ofView`: an iterator that answers as another does on a view of it walks the same list, which
  carries `Iter`'s walk to `IterMut`, `Keys`, `Values` and, through `IntoIter.step_view`, `IntoIter`;
- `iter_interleaved_next_back`: the law for all five on every map whose length field counts its entries.
-/

namespace BtreeMonstrousity

open Node

variable {K V : Type}

/-- Modelled from the spec: `LazyLeafHandle`: the tree's root, not yet descended, or a leaf edge of the tree -/
inductive LazyLeafHandle (K V : Type)
  | root (r : Root K V)
  | edge (r : Root K V) (e : Handle)

/-- Modelled from the spec: `LazyLeafRange`: the front and back ends, both `None` for a map without a root -/
structure LazyLeafRange (K V : Type) where
  front : Option (LazyLeafHandle K V)
  back : Option (LazyLeafHandle K V)

namespace LazyLeafRange

/-- `LazyLeafRange::none` -/
def none : LazyLeafRange K V := ⟨.none, .none⟩

/-- `full_range`: both ends at the root -/
def full (r : Root K V) : LazyLeafRange K V := ⟨some (.root r), some (.root r)⟩

/-- `init_front`: a front still at the root descends to the first leaf edge -/
def initFront : Option (LazyLeafHandle K V) → Option (Root K V × Handle)
  | some (.root r) => some (r, firstLeafEdge r.height r.node)
  | some (.edge r e) => some (r, e)
  | .none => .none

/-- `init_back`: a back still at the root descends to the last leaf edge -/
def initBack : Option (LazyLeafHandle K V) → Option (Root K V × Handle)
  | some (.root r) => some (r, lastLeafEdge r.height r.node)
  | some (.edge r e) => some (r, e)
  | .none => .none

/-- `next_unchecked`: the pair right of the front edge, the front moved to the leaf edge after it; `none` where
an `unwrap` of the source would fail -/
def nextUnchecked (g : LazyLeafRange K V) : Option ((K × V) × LazyLeafRange K V) :=
  match initFront g.front with
  | some (r, e) => (nextKv r.node e).bind fun kv =>
      (kvAt r.node kv).map fun p => (p, { g with front := some (.edge r (nextLeafEdge r.height r.node kv)) })
  | .none => .none

/-- `next_back_unchecked`: the pair left of the back edge, the back moved to the leaf edge before it -/
def nextBackUnchecked (g : LazyLeafRange K V) : Option ((K × V) × LazyLeafRange K V) :=
  match initBack g.back with
  | some (r, e) => (nextBackKv e).bind fun kv =>
      (kvAt r.node kv).map fun p => (p, { g with back := some (.edge r (nextBackLeafEdge r.height r.node kv)) })
  | .none => .none

/-- Modelled from the spec: `deallocating_end`: the front taken, and the nodes from it up to the root freed -/
def deallocatingEnd (g : LazyLeafRange K V) : LazyLeafRange K V := { g with front := .none }

/-- Modelled from the spec: `deallocating_next_unchecked`: `next_unchecked` over the dying tree (the nodes it leaves
are freed, which the model does not track) -/
def deallocatingNextUnchecked (g : LazyLeafRange K V) : Option ((K × V) × LazyLeafRange K V) := g.nextUnchecked

/-- Modelled from the spec: `deallocating_next_back_unchecked` -/
def deallocatingNextBackUnchecked (g : LazyLeafRange K V) : Option ((K × V) × LazyLeafRange K V) :=
  g.nextBackUnchecked

end LazyLeafRange

/-- `Iter`: the range and the number of entries left (`len()`, and both bounds of `size_hint()`) -/
structure Iter (K V : Type) where
  range : LazyLeafRange K V
  length : ℕ

/-- `BTreeMap::iter` -/
def BTreeMap.iter (m : BTreeMap K V) : Iter K V :=
  match m.root with
  | some r => ⟨.full r, m.length⟩
  | none => ⟨.none, 0⟩

/-- a call on a double-ended iterator -/
inductive Dir
  | next
  | nextBack
deriving DecidableEq

namespace Iter

/-- `Iter::next`: `None` when the count is 0, else the count lowered and the front stepped (the source's
`Some(next_unchecked())`; the `none` branch is where that step would panic) -/
def next (it : Iter K V) : Option (K × V) × Iter K V :=
  if it.length = 0 then (none, it)
  else
    match it.range.nextUnchecked with
    | some (p, g) => (some p, ⟨g, it.length - 1⟩)
    | none => (none, it)

/-- `Iter::next_back` -/
def nextBack (it : Iter K V) : Option (K × V) × Iter K V :=
  if it.length = 0 then (none, it)
  else
    match it.range.nextBackUnchecked with
    | some (p, g) => (some p, ⟨g, it.length - 1⟩)
    | none => (none, it)

/-- one call -/
def step (it : Iter K V) : Dir → Option (K × V) × Iter K V
  | .next => it.next
  | .nextBack => it.nextBack

/-- `Iter::min` (the override): `self.next()` -/
def min (it : Iter K V) : Option (K × V) := it.next.1

/-- `Iter::max` (the override): `self.next_back()` -/
def max (it : Iter K V) : Option (K × V) := it.nextBack.1

end Iter

/-- `IterMut`: `Iter`'s fields, the range lending the values mutably (the items are read here; a write through one
is not modelled) -/
structure IterMut (K V : Type) where
  range : LazyLeafRange K V
  length : ℕ

/-- `BTreeMap::iter_mut` -/
def BTreeMap.iterMut (m : BTreeMap K V) : IterMut K V :=
  match m.root with
  | some r => ⟨.full r, m.length⟩
  | none => ⟨.none, 0⟩

/-- `IterMut::iter`: the same range and count, read-only -/
def IterMut.iter (it : IterMut K V) : Iter K V := ⟨it.range, it.length⟩

/-- `IterMut::next` and `next_back`: the bodies of `Iter`'s, on the iterator's own range and count -/
def IterMut.step (it : IterMut K V) (d : Dir) : Option (K × V) × IterMut K V :=
  ((it.iter.step d).1, ⟨(it.iter.step d).2.range, (it.iter.step d).2.length⟩)

/-- `IntoIter`: the range over the tree it owns and the number of entries left -/
structure IntoIter (K V : Type) where
  range : LazyLeafRange K V
  length : ℕ

/-- `BTreeMap::into_iter`: the root taken, both ends at it -/
def BTreeMap.intoIter (m : BTreeMap K V) : IntoIter K V :=
  match m.root with
  | some r => ⟨.full r, m.length⟩
  | none => ⟨.none, 0⟩

/-- `IntoIter::iter`: the same range and count, read-only -/
def IntoIter.iter (it : IntoIter K V) : Iter K V := ⟨it.range, it.length⟩

namespace IntoIter

/-- `dying_next`: with nothing left, `deallocating_end` and `None`; else the count lowered and the front stepped
(the pair moved out by `into_key_val`) -/
def dyingNext (it : IntoIter K V) : Option (K × V) × IntoIter K V :=
  if it.length = 0 then (none, { it with range := it.range.deallocatingEnd })
  else
    match it.range.deallocatingNextUnchecked with
    | some (p, g) => (some p, ⟨g, it.length - 1⟩)
    | none => (none, it)

/-- `dying_next_back` -/
def dyingNextBack (it : IntoIter K V) : Option (K × V) × IntoIter K V :=
  if it.length = 0 then (none, { it with range := it.range.deallocatingEnd })
  else
    match it.range.deallocatingNextBackUnchecked with
    | some (p, g) => (some p, ⟨g, it.length - 1⟩)
    | none => (none, it)

/-- `IntoIter::next` and `next_back`: `dying_next` and `dying_next_back` -/
def step (it : IntoIter K V) : Dir → Option (K × V) × IntoIter K V
  | .next => it.dyingNext
  | .nextBack => it.dyingNextBack

end IntoIter

/-- `Keys`: an `Iter` whose items are the keys -/
structure Keys (K V : Type) where
  inner : Iter K V

/-- `BTreeMap::keys` -/
def BTreeMap.keys (m : BTreeMap K V) : Keys K V := ⟨m.iter⟩

/-- `Keys::next` and `next_back`: the inner iterator's call, the key of its pair -/
def Keys.step (it : Keys K V) (d : Dir) : Option K × Keys K V :=
  ((it.inner.step d).1.map Prod.fst, ⟨(it.inner.step d).2⟩)

/-- `Values`: an `Iter` whose items are the values -/
structure Values (K V : Type) where
  inner : Iter K V

/-- `BTreeMap::values` -/
def BTreeMap.values (m : BTreeMap K V) : Values K V := ⟨m.iter⟩

/-- `Values::next` and `next_back`: the inner iterator's call, the value of its pair -/
def Values.step (it : Values K V) (d : Dir) : Option V × Values K V :=
  ((it.inner.step d).1.map Prod.snd, ⟨(it.inner.step d).2⟩)

/-- how many calls `d` of a run answered `Some` -/
def countSome {α : Type} (d : Dir) (tr : List (Dir × Option α)) : ℕ :=
  tr.countP fun p => decide (p.1 = d) && p.2.isSome

/-- `Iterator::min`: the first least item, as `min_by` folds with `cmp::min_by` -/
def iterMin {α : Type} [LinearOrder α] : List α → Option α
  | [] => none
  | a :: l => some (l.foldl (fun m x => if x < m then x else m) a)

/-- `Iterator::max`: the last greatest item, as `max_by` folds with `cmp::max_by` -/
def iterMax {α : Type} [LinearOrder α] : List α → Option α
  | [] => none
  | a :: l => some (l.foldl (fun m x => if x < m then m else x) a)

/-! ## Where the ends stand -/

/-- an end of the range stands at gap `pos` of `r`'s in-order sequence; at the root it stands at `start` -/
def EndAt (r : Root K V) (start : ℕ) : Option (LazyLeafHandle K V) → ℕ → Prop
  | some (.root r'), pos => r' = r ∧ pos = start
  | some (.edge r' e), pos => r' = r ∧ r.IsLeafEdge e ∧ r.rank e = pos
  | .none, _ => False

/-- the iterator over `r` has its back at gap `b`, its front at gap `f` while `f < b` (`deallocating_end` takes it
once nothing is left), and counts `b - f` left -/
structure Iter.Inv (r : Root K V) (it : Iter K V) (f b : ℕ) : Prop where
  front : f < b → EndAt r 0 it.range.front f
  back : EndAt r r.inorder.length it.range.back b
  le : f ≤ b
  le_length : b ≤ r.inorder.length
  length_eq : it.length = b - f

/-! ## One step -/

section Step

variable {r : Root K V}

theorem initFront_spec {h : Option (LazyLeafHandle K V)} {f : ℕ} (hf : EndAt r 0 h f) :
    ∃ e, LazyLeafRange.initFront h = some (r, e) ∧ r.IsLeafEdge e ∧ r.rank e = f := by
  rcases h with _ | (r' | ⟨r', e⟩)
  · exact hf.elim
  · obtain ⟨rfl, rfl⟩ := hf
    exact ⟨_, rfl, (firstLeafEdge_spec r'.shaped).1, (firstLeafEdge_spec r'.shaped).2⟩
  · obtain ⟨rfl, he, hr⟩ := hf
    exact ⟨e, rfl, he, hr⟩

theorem initBack_spec {h : Option (LazyLeafHandle K V)} {b : ℕ} (hb : EndAt r r.inorder.length h b) :
    ∃ e, LazyLeafRange.initBack h = some (r, e) ∧ r.IsLeafEdge e ∧ r.rank e = b := by
  rcases h with _ | (r' | ⟨r', e⟩)
  · exact hb.elim
  · obtain ⟨rfl, rfl⟩ := hb
    exact ⟨_, rfl, (lastLeafEdge_spec r'.shaped).1, (lastLeafEdge_spec r'.shaped).2⟩
  · obtain ⟨rfl, he, hr⟩ := hb
    exact ⟨e, rfl, he, hr⟩

/-- a front short of the end steps over the pair at its gap -/
theorem nextUnchecked_spec {g : LazyLeafRange K V} {f : ℕ} (hf : EndAt r 0 g.front f)
    (hlt : f < r.inorder.length) :
    ∃ g', g.nextUnchecked = some (r.inorder[f], g') ∧ g'.back = g.back ∧ EndAt r 0 g'.front (f + 1) := by
  obtain ⟨e, hi, he, rfl⟩ := initFront_spec hf
  obtain ⟨kv, hk, hx, hle, hnr⟩ := r.nextKv_of_lt he hlt
  refine ⟨{ g with front := some (.edge r (nextLeafEdge r.height r.node kv)) }, ?_, rfl, rfl, hle, hnr⟩
  simp only [LazyLeafRange.nextUnchecked, hi, hk, Option.some_bind, hx, List.getElem?_eq_getElem hlt,
    Option.map_some']

/-- a back past the start steps over the pair before its gap -/
theorem nextBackUnchecked_spec {g : LazyLeafRange K V} {b : ℕ} (hb : EndAt r r.inorder.length g.back b)
    (hpos : 0 < b) (hle : b ≤ r.inorder.length) :
    ∃ g', g.nextBackUnchecked = some (r.inorder[b - 1], g') ∧ g'.front = g.front ∧ EndAt r r.inorder.length g'.back (b - 1) := by
  obtain ⟨e, hi, he, rfl⟩ := initBack_spec hb
  obtain ⟨kv, hk, hx, hle', hnr⟩ := r.nextBackKv_of_pos he hpos
  refine ⟨{ g with back := some (.edge r (nextBackLeafEdge r.height r.node kv)) }, ?_, rfl, rfl, hle', hnr⟩
  simp only [LazyLeafRange.nextBackUnchecked, hi, hk, Option.some_bind, hx,
    List.getElem?_eq_getElem (show r.rank e - 1 < r.inorder.length by omega), Option.map_some']

/-- `next`: while `f < b` the pair at `f`, the front moved to `f + 1`; `None` and no move once `f = b` -/
theorem Iter.next_spec {it : Iter K V} {f b : ℕ} (hI : it.Inv r f b) :
    it.next.1 = (if f < b then r.inorder[f]? else none) ∧ it.next.2.Inv r (if f < b then f + 1 else f) b := by
  have hN := hI.le_length
  by_cases hlt : f < b
  · have hlen : it.length ≠ 0 := by rw [hI.length_eq]; omega
    obtain ⟨g', hn, hback, hfront⟩ := nextUnchecked_spec (hI.front hlt) (by omega)
    simp only [Iter.next, if_neg hlen, hn, if_pos hlt, List.getElem?_eq_getElem (show f < r.inorder.length by omega)]
    exact ⟨trivial, fun _ => hfront, hback ▸ hI.back, by omega, hN, by dsimp only; rw [hI.length_eq]; omega⟩
  · have hlen : it.length = 0 := by rw [hI.length_eq]; omega
    simp only [Iter.next, if_pos hlen, if_neg hlt]
    exact ⟨trivial, hI⟩

/-- `next_back`: while `f < b` the pair at `b - 1`, the back moved to `b - 1`; `None` and no move once `f = b` -/
theorem Iter.nextBack_spec {it : Iter K V} {f b : ℕ} (hI : it.Inv r f b) :
    it.nextBack.1 = (if f < b then r.inorder[b - 1]? else none) ∧
      it.nextBack.2.Inv r f (if f < b then b - 1 else b) := by
  have hN := hI.le_length
  by_cases hlt : f < b
  · have hlen : it.length ≠ 0 := by rw [hI.length_eq]; omega
    obtain ⟨g', hn, hfront, hback⟩ := nextBackUnchecked_spec hI.back (by omega) hN
    simp only [Iter.nextBack, if_neg hlen, hn, if_pos hlt,
      List.getElem?_eq_getElem (show b - 1 < r.inorder.length by omega)]
    exact ⟨trivial, fun _ => hfront ▸ hI.front hlt, hback, by omega, by omega, by dsimp only; rw [hI.length_eq]; omega⟩
  · have hlen : it.length = 0 := by rw [hI.length_eq]; omega
    simp only [Iter.nextBack, if_pos hlen, if_neg hlt]
    exact ⟨trivial, hI⟩

end Step

/-! ## Runs -/

section Runs

variable {S S' α β : Type}

@[simp] theorem countSome_nil (d : Dir) : countSome d ([] : List (Dir × Option α)) = 0 := rfl

theorem countSome_cons (d d' : Dir) (o : Option α) (tr : List (Dir × Option α)) :
    countSome d ((d', o) :: tr) = countSome d tr + if d' = d ∧ o.isSome then 1 else 0 := by
  unfold countSome
  rw [List.countP_cons]
  simp

/-- the answers of a run of calls on a double-ended iterator with one-call function `step`, each with its call, and
the iterator after them -/
def runSteps (step : S → Dir → Option α × S) (s : S) : List Dir → List (Dir × Option α) × S
  | [] => ([], s)
  | d :: ds => ((d, (step s d).1) :: (runSteps step (step s d).2 ds).1, (runSteps step (step s d).2 ds).2)

/-- `step` walks `xs` from both ends: from a state whose front and back stand at gaps `f ≤ b` (`Inv s f b`),
`next` answers the item at `f` and moves the front by one while `f < b`, `next_back` the item at `b - 1` and moves
the back, and both answer `None` and stay once `f = b` -/
structure DoubleEnded (xs : List α) (Inv : S → ℕ → ℕ → Prop) (step : S → Dir → Option α × S) : Prop where
  le_length : ∀ {s f b}, Inv s f b → b ≤ xs.length
  le : ∀ {s f b}, Inv s f b → f ≤ b
  next : ∀ {s f b}, Inv s f b →
    (step s .next).1 = (if f < b then xs[f]? else none) ∧ Inv (step s .next).2 (if f < b then f + 1 else f) b
  nextBack : ∀ {s f b}, Inv s f b → (step s .nextBack).1 = (if f < b then xs[b - 1]? else none) ∧
    Inv (step s .nextBack).2 f (if f < b then b - 1 else b)

/-- over any run of calls, the front has moved by the `Some`s of `next` and the back by those of `next_back` -/
theorem DoubleEnded.runSteps_spec {xs : List α} {Inv : S → ℕ → ℕ → Prop} {step : S → Dir → Option α × S}
    (hD : DoubleEnded xs Inv step) :
    ∀ (ds : List Dir) {s : S} {f b : ℕ}, Inv s f b →
      ∃ b', Inv (runSteps step s ds).2 (f + countSome .next (runSteps step s ds).1) b' ∧
        b' + countSome .nextBack (runSteps step s ds).1 = b
  | [], _, _, b, hI => ⟨b, hI, rfl⟩
  | .next :: ds, s, f, b, hI => by
    obtain ⟨h1, h2⟩ := hD.next hI
    obtain ⟨b', hI', hb'⟩ := hD.runSteps_spec ds h2
    have hN := hD.le_length hI
    refine ⟨b', (congrArg (Inv _ · b') ?_).mp hI', ?_⟩ <;> simp only [runSteps, countSome_cons, h1]
    · by_cases hlt : f < b
      · simp [hlt, List.getElem?_eq_getElem (show f < xs.length by omega)]; omega
      · simp [hlt]
    · simpa using hb'
  | .nextBack :: ds, s, f, b, hI => by
    obtain ⟨h1, h2⟩ := hD.nextBack hI
    obtain ⟨b', hI', hb'⟩ := hD.runSteps_spec ds h2
    have hN := hD.le_length hI
    refine ⟨b', (congrArg (Inv _ · b') ?_).mp hI', ?_⟩ <;> simp only [runSteps, countSome_cons, h1]
    · simp
    · by_cases hlt : f < b
      · rw [if_pos hlt] at hb'
        simp [hlt, List.getElem?_eq_getElem (show b - 1 < xs.length by omega)]; omega
      · simpa [hlt] using hb'

/-- the law of a double-ended iterator over `xs` from `s`, its `len()` given by `len`: after any run of calls, with
`i` `Some`s from `next` and `j` from `next_back`, `i + j ≤ |xs|` and `len` is `|xs| - (i + j)`; the next `next`
answers `xs[i]` and the next `next_back` `xs[|xs| - 1 - j]` while `i + j < |xs|`, and both `None` after; and
`safe` (its unchecked steps would find an item) holds whenever `len` is positive -/
def Interleaves (xs : List α) (step : S → Dir → Option α × S) (len : S → ℕ) (safe : S → Prop) (s : S) : Prop :=
  ∀ (ds : List Dir) (d : Dir),
    let tr := (runSteps step s ds).1
    let t := (runSteps step s ds).2
    countSome .next tr + countSome .nextBack tr ≤ xs.length ∧
      len t = xs.length - (countSome .next tr + countSome .nextBack tr) ∧
      (step t d).1 = (if countSome .next tr + countSome .nextBack tr < xs.length then
          (match d with
           | .next => xs[countSome .next tr]?
           | .nextBack => xs[xs.length - 1 - countSome .nextBack tr]?)
        else none) ∧
      (len t ≠ 0 → safe t)

/-- **The law from the walk.** An iterator that walks `xs` from both ends, from a state at gaps `0` and `|xs|`,
whose `len` counts the gaps between its ends and whose unchecked steps work while they differ, obeys the law -/
theorem DoubleEnded.interleaves {xs : List α} {Inv : S → ℕ → ℕ → Prop} {step : S → Dir → Option α × S}
    (hD : DoubleEnded xs Inv step) {len : S → ℕ} {safe : S → Prop} (hlen : ∀ {t f b}, Inv t f b → len t = b - f)
    (hsafe : ∀ {t f b}, Inv t f b → f < b → safe t) {s : S} (h0 : Inv s 0 xs.length) :
    Interleaves xs step len safe s := by
  intro ds d
  obtain ⟨b', hI, hb⟩ := hD.runSteps_spec ds h0
  rw [zero_add] at hI
  dsimp only
  set i := countSome .next (runSteps step s ds).1
  set j := countSome .nextBack (runSteps step s ds).1
  have hle := hD.le hI
  have hc : (i + j < xs.length) = (i < b') := propext (by omega)
  refine ⟨by omega, by rw [hlen hI]; omega, ?_, fun h => hsafe hI (by rw [hlen hI] at h; omega)⟩
  simp only [hc]
  cases d with
  | next => exact (hD.next hI).1
  | nextBack => rw [(hD.nextBack hI).1, show b' - 1 = xs.length - 1 - j by omega]

/-- an iterator whose every call answers `None` and leaves it as it is walks the empty list -/
theorem DoubleEnded.stuck {step : S → Dir → Option α × S} {s : S} (hs : ∀ d, step s d = (none, s)) :
    DoubleEnded ([] : List α) (fun t f b => t = s ∧ f = 0 ∧ b = 0) step where
  le_length := fun ⟨_, _, hb⟩ => hb.le
  le := fun ⟨_, hf, hb⟩ => by omega
  next := fun ⟨ht, hf, hb⟩ => by subst ht hf hb; simp [hs]
  nextBack := fun ⟨ht, hf, hb⟩ => by subst ht hf hb; simp [hs]

theorem interleaves_of_stuck {step : S → Dir → Option α × S} {len : S → ℕ} {safe : S → Prop} {s : S}
    (hs : ∀ d, step s d = (none, s)) (hlen : len s = 0) : Interleaves [] step len safe s :=
  (DoubleEnded.stuck hs).interleaves (fun ⟨ht, hf, hb⟩ => by rw [ht, hf, hb, hlen]) (fun ⟨_, hf, hb⟩ h => by omega)
    ⟨rfl, rfl, rfl⟩

/-- **A view.** An iterator whose calls answer as `step` does on its view `view s`, items mapped by `g`, and whose
next state's view stands wherever `step`'s next state does, walks the mapped list -/
theorem DoubleEnded.ofView {xs : List α} {Inv : S → ℕ → ℕ → Prop} {step : S → Dir → Option α × S}
    (hD : DoubleEnded xs Inv step) (view : S' → S) (g : α → β) {ys : List β} (hys : xs.map g = ys)
    {step' : S' → Dir → Option β × S'}
    (hstep : ∀ s d, (step' s d).1 = (step (view s) d).1.map g ∧
      ∀ {f b}, Inv (step (view s) d).2 f b → Inv (view (step' s d).2) f b) :
    DoubleEnded ys (fun s => Inv (view s)) step' where
  le_length hI := hys ▸ (List.length_map xs g).symm ▸ hD.le_length hI
  le hI := hD.le hI
  next hI := ⟨by simp only [(hstep _ .next).1, (hD.next hI).1, ← hys, apply_ite (Option.map g), List.getElem?_map,
      Option.map_none'], (hstep _ .next).2 (hD.next hI).2⟩
  nextBack hI := ⟨by simp only [(hstep _ .nextBack).1, (hD.nextBack hI).1, ← hys, apply_ite (Option.map g),
      List.getElem?_map, Option.map_none'], (hstep _ .nextBack).2 (hD.nextBack hI).2⟩

end Runs

/-! ## The five iterators -/

section Family

variable (r : Root K V)

/-- `Iter` walks the tree's pairs from both ends -/
theorem Iter.doubleEnded : DoubleEnded r.inorder (fun it f b => it.Inv r f b) Iter.step :=
  ⟨fun hI => hI.le_length, fun hI => hI.le, Iter.next_spec, Iter.nextBack_spec⟩

theorem IterMut.doubleEnded : DoubleEnded r.inorder (fun it f b => it.iter.Inv r f b) IterMut.step :=
  (Iter.doubleEnded r).ofView IterMut.iter id (List.map_id _) fun _ _ => ⟨(congrFun Option.map_id _).symm, id⟩

/-- with pairs left, `dying_next` and `dying_next_back` are `Iter`'s calls on `iter()`; with none left they answer
`None`, as `Iter`'s do, and take the front, which no gap needs then -/
theorem IntoIter.step_view (it : IntoIter K V) (d : Dir) :
    (it.step d).1 = (it.iter.step d).1 ∧
      ∀ {f b}, (it.iter.step d).2.Inv r f b → (it.step d).2.iter.Inv r f b := by
  by_cases h : it.length = 0
  · have hi : it.iter.step d = (none, it.iter) := by
      cases d <;> simp [Iter.step, Iter.next, Iter.nextBack, IntoIter.iter, h]
    have hs : it.step d = (none, ⟨it.range.deallocatingEnd, it.length⟩) := by
      cases d <;> simp [IntoIter.step, IntoIter.dyingNext, IntoIter.dyingNextBack, h]
    rw [hi, hs]
    refine ⟨rfl, fun hI => ⟨fun hlt => ?_, hI.back, hI.le, hI.le_length, hI.length_eq⟩⟩
    have := hI.length_eq
    simp only [IntoIter.iter, h] at this
    omega
  · cases d <;> simp only [IntoIter.step, IntoIter.dyingNext, IntoIter.dyingNextBack, Iter.step, Iter.next,
      Iter.nextBack, IntoIter.iter, if_neg h, LazyLeafRange.deallocatingNextUnchecked,
      LazyLeafRange.deallocatingNextBackUnchecked] <;> split <;> exact ⟨rfl, id⟩

theorem IntoIter.doubleEnded : DoubleEnded r.inorder (fun it f b => it.iter.Inv r f b) IntoIter.step :=
  (Iter.doubleEnded r).ofView IntoIter.iter id (List.map_id _) fun s d =>
    ⟨(IntoIter.step_view r s d).1.trans (congrFun Option.map_id _).symm, (IntoIter.step_view r s d).2⟩

theorem Keys.doubleEnded : DoubleEnded (r.inorder.map Prod.fst) (fun it f b => it.inner.Inv r f b) Keys.step :=
  (Iter.doubleEnded r).ofView Keys.inner Prod.fst rfl fun _ _ => ⟨rfl, id⟩

theorem Values.doubleEnded : DoubleEnded (r.inorder.map Prod.snd) (fun it f b => it.inner.Inv r f b) Values.step :=
  (Iter.doubleEnded r).ofView Values.inner Prod.snd rfl fun _ _ => ⟨rfl, id⟩

variable {r}

/-- while its ends differ, both unchecked steps of the range find a pair -/
theorem Iter.Inv.unchecked {it : Iter K V} {f b : ℕ} (hI : it.Inv r f b) (hlt : f < b) :
    it.range.nextUnchecked.isSome ∧ it.range.nextBackUnchecked.isSome := by
  obtain ⟨_, hn, -⟩ := nextUnchecked_spec (hI.front hlt) (by have := hI.le_length; omega)
  obtain ⟨_, hb, -⟩ := nextBackUnchecked_spec hI.back (by omega) hI.le_length
  rw [hn, hb]
  exact ⟨rfl, rfl⟩

theorem iter_inv_full {n : ℕ} (hn : n = r.inorder.length) :
    (BTreeMap.iter ⟨some r, n⟩).Inv r 0 r.inorder.length :=
  ⟨fun _ => ⟨rfl, rfl⟩, ⟨rfl, rfl⟩, Nat.zero_le _, le_rfl, hn⟩

end Family

/-- **Double-ended iteration.** On every map whose length field counts its entries `e_0 < ... < e_{n-1}`, each of
`iter()`, `iter_mut()`, `into_iter()`, `keys()` and `values()` obeys the law of `Interleaves` over the entries
(their keys, their values): after any interleaving of `next` and `next_back` calls, with `i` `Some`s from `next`
and `j` from `next_back` so far, `i + j ≤ n`; `len()` (and `size_hint()`) is `n - (i + j)`; the next `next` returns
`e_i` and the next `next_back` `e_{n-1-j}` while `i + j < n`, and both return `None` once `i + j = n`; and whenever
the count is positive the unchecked steps (`IntoIter`'s deallocating ones) each find an entry, so their `unwrap`s
never fail. -/
theorem iter_interleaved_next_back (m : BTreeMap K V) (hlen : m.length = m.entries.length) :
    Interleaves m.entries Iter.step Iter.length
        (fun it => it.range.nextUnchecked.isSome ∧ it.range.nextBackUnchecked.isSome) m.iter ∧
      Interleaves m.entries IterMut.step IterMut.length
        (fun it => it.range.nextUnchecked.isSome ∧ it.range.nextBackUnchecked.isSome) m.iterMut ∧
      Interleaves m.entries IntoIter.step IntoIter.length
        (fun it => it.range.deallocatingNextUnchecked.isSome ∧ it.range.deallocatingNextBackUnchecked.isSome)
        m.intoIter ∧
      Interleaves (m.entries.map Prod.fst) Keys.step (fun it => it.inner.length)
        (fun it => it.inner.range.nextUnchecked.isSome ∧ it.inner.range.nextBackUnchecked.isSome) m.keys ∧
      Interleaves (m.entries.map Prod.snd) Values.step (fun it => it.inner.length)
        (fun it => it.inner.range.nextUnchecked.isSome ∧ it.inner.range.nextBackUnchecked.isSome) m.values := by
  rcases m with ⟨_ | r, n⟩
  · refine ⟨?_, ?_, ?_, ?_, ?_⟩ <;> exact interleaves_of_stuck (fun d => by cases d <;> rfl) rfl
  · have h0 := iter_inv_full (show n = r.inorder.length from hlen)
    exact ⟨(Iter.doubleEnded r).interleaves (fun hI => hI.length_eq) (fun hI => hI.unchecked) h0,
      (IterMut.doubleEnded r).interleaves (fun hI => hI.length_eq) (fun hI => hI.unchecked) h0,
      (IntoIter.doubleEnded r).interleaves (fun hI => hI.length_eq) (fun hI => hI.unchecked) h0,
      (Keys.doubleEnded r).interleaves (fun hI => hI.length_eq) (fun hI => hI.unchecked)
        (by rw [List.length_map]; exact h0),
      (Values.doubleEnded r).interleaves (fun hI => hI.length_eq) (fun hI => hI.unchecked)
        (by rw [List.length_map]; exact h0)⟩

/-- a map of two entries in one leaf -/
def twoEntries : BTreeMap ℕ ℕ := ⟨some (Root.leaf [(1, 10), (2, 20)]), 2⟩

/-- the law for the five iterators over `twoEntries` -/
theorem iter_interleaved_two_entries :
    twoEntries.length = twoEntries.entries.length ∧
      Interleaves twoEntries.entries Iter.step Iter.length
        (fun it => it.range.nextUnchecked.isSome ∧ it.range.nextBackUnchecked.isSome) twoEntries.iter ∧
      Interleaves twoEntries.entries IterMut.step IterMut.length
        (fun it => it.range.nextUnchecked.isSome ∧ it.range.nextBackUnchecked.isSome) twoEntries.iterMut ∧
      Interleaves twoEntries.entries IntoIter.step IntoIter.length
        (fun it => it.range.deallocatingNextUnchecked.isSome ∧ it.range.deallocatingNextBackUnchecked.isSome)
        twoEntries.intoIter ∧
      Interleaves (twoEntries.entries.map Prod.fst) Keys.step (fun it => it.inner.length)
        (fun it => it.inner.range.nextUnchecked.isSome ∧ it.inner.range.nextBackUnchecked.isSome) twoEntries.keys ∧
      Interleaves (twoEntries.entries.map Prod.snd) Values.step (fun it => it.inner.length)
        (fun it => it.inner.range.nextUnchecked.isSome ∧ it.inner.range.nextBackUnchecked.isSome)
        twoEntries.values :=
  ⟨rfl, iter_interleaved_next_back twoEntries rfl⟩

/-- `into_iter()` on `twoEntries`: `next`, `next_back`, then a `next_back` past the end, which runs
`deallocating_end` and leaves no front -/
example : (runSteps IntoIter.step twoEntries.intoIter [.next, .nextBack, .nextBack]).1 =
      [(.next, some (1, 10)), (.nextBack, some (2, 20)), (.nextBack, none)] ∧
    (runSteps IntoIter.step twoEntries.intoIter [.next, .nextBack, .nextBack]).2.range.front.isNone := ⟨rfl, rfl⟩

example : (runSteps Keys.step twoEntries.keys [.nextBack, .next, .next]).1 =
    [(.nextBack, some 2), (.next, some 1), (.next, none)] := rfl

/-! ## `min` and `max` -/

/-- **The `min` / `max` overrides.** On every map whose length field counts its entries, `Iter::min` returns the
first entry in tree order and `Iter::max` the last, whatever the items' own order. -/
theorem iter_min_max_tree_order (m : BTreeMap K V) (hlen : m.length = m.entries.length) :
    m.iter.min = m.entries.head? ∧ m.iter.max = m.entries.getLast? := by
  rcases m with ⟨_ | r, n⟩
  · exact ⟨rfl, rfl⟩
  · have hI := iter_inv_full (show n = r.inorder.length from hlen)
    refine ⟨(Iter.next_spec hI).1.trans ?_, (Iter.nextBack_spec hI).1.trans ?_⟩
    · rw [BTreeMap.entries_some, List.head?_eq_getElem?]
      split_ifs with h
      · rfl
      · exact (List.getElem?_eq_none (by omega)).symm
    · rw [BTreeMap.entries_some, List.getLast?_eq_getElem?]
      split_ifs with h
      · rfl
      · exact (List.getElem?_eq_none (by omega)).symm

/-- the same on `twoEntries` -/
theorem iter_min_max_two_entries :
    twoEntries.length = twoEntries.entries.length ∧
      twoEntries.iter.min = twoEntries.entries.head? ∧ twoEntries.iter.max = twoEntries.entries.getLast? :=
  ⟨rfl, iter_min_max_tree_order twoEntries rfl⟩

/-- the map built by `insert(1, 10)` then `insert(2, 20)`, each comparator `|k| compare(t, k)` on `ℕ` reversed:
the keys stand `2, 1` in tree order -/
def reversedMap : BTreeMap ℕ ℕ := run flatLayer OrderDual.toDual .new [.insert 1 10, .insert 2 20]

/-- On `reversedMap`, whose keys strictly ascend in its own order, `Iter::min` returns `(2, 20)` where
`Iterator::min` returns the least item `(1, 10)`, and `Iter::max` returns `(1, 10)` where `Iterator::max`
returns the greatest, `(2, 20)`. -/
theorem iter_min_max_reversed_order :
    Inv OrderDual.toDual reversedMap ∧
      reversedMap.iter.min = some (2, 20) ∧ iterMin (reversedMap.entries.map toLex) = some (toLex (1, 10)) ∧
      reversedMap.iter.max = some (1, 10) ∧ iterMax (reversedMap.entries.map toLex) = some (toLex (2, 20)) :=
  ⟨run_inv flatLayer _ _ (inv_new _), by decide, by decide, by decide, by decide⟩

end BtreeMonstrousity
