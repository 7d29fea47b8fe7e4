import BtreeMonstrousity.Map

/-!
`BTreeMap::drain_filter` and `retain` (map.rs) over a tree whose node layer is the contract `NodeLayer`.

- `PredFn σ K V`: a `FnMut(&K, &mut V) -> bool` predicate as a step of its captured state: a call on `(k, v)` gives
  the state after, the value it leaves in `v`, and its verdict.
- `DrainFilter`: the borrowed map (root and live length field), `cur_leaf_edge`, and the predicate's state. `next`
  is `DrainFilterInner::next`, its `while let` loop given enough fuel for every element after the edge; `drop` is
  `for_each(drop)`; `BTreeMap.retain f` drains `!f` and drops at once.
- `ADrain`: the same iterator on the position model, the entries visited and kept, and those not visited yet;
  `drainNext` is its `next`. `DrainFilter.At` relates the two: `nextLoop_turn` says what one turn of the loop
  does, and `nextLoop_spec` shows from it that each call of `next` refines `drainNext`.
- `scan f s l`: the predicate called on the entries of `l` in order from state `s`. `ADrain.outcome` is what a
  drain will end with: the entries it keeps, those it will still return, and the predicate's final state; every
  call of `next` leaves the first and the last alone and takes its result from the front of the second
  (`drainNext_outcome`).

`drain_filter_peek_size_hint`: along every run of `next`, `peek` returns the first entry not visited yet, and the
upper bound of `size_hint`, the length field, is at least the number of entries every later run of `next` returns.

`drain_filter_then_drop`: on a map whose keys strictly ascend and whose length field counts its entries, after `j`
calls of `next` on `drain_filter(pred)` and the drop, `pred` has been called once on each entry in key order, the
calls returned the first `j` accepted entries with the values `pred` left, then `None`; the map holds the rejected
entries with those values, still ascending, and its length field counts them. `retain_spec`: `retain(f)` keeps
exactly the entries `f` accepts, `f` called once on each in key order.
-/

namespace BtreeMonstrousity

variable {K V σ : Type}

/-- a `FnMut(&K, &mut V) -> bool` predicate as a step of its captured state: a call on `(k, v)` returns the state
after, the value it leaves in `v`, and its verdict -/
abbrev PredFn (σ K V : Type) := σ → K → V → σ × V × Bool

/-! ## The predicate over a list -/

section Scan

variable (f : PredFn σ K V)

/-- `f` called on the entries of `l` in order from state `s`: each entry with the value the call left and the
verdict, and the state after the last call -/
def scan : σ → List (K × V) → List ((K × V) × Bool) × σ
  | s, [] => ([], s)
  | s, (k, v) :: l => (((k, (f s k v).2.1), (f s k v).2.2) :: (scan (f s k v).1 l).1, (scan (f s k v).1 l).2)

/-- the entries a scan accepts, with the values left by the predicate -/
def accepted (vs : List ((K × V) × Bool)) : List (K × V) := vs.filterMap fun x => if x.2 then some x.1 else none

/-- the entries a scan rejects, with the values left by the predicate -/
def rejected (vs : List ((K × V) × Bool)) : List (K × V) := vs.filterMap fun x => if x.2 then none else some x.1

@[simp] theorem accepted_nil : accepted ([] : List ((K × V) × Bool)) = [] := rfl

@[simp] theorem rejected_nil : rejected ([] : List ((K × V) × Bool)) = [] := rfl

@[simp] theorem accepted_cons (x : K × V) (b : Bool) (vs : List ((K × V) × Bool)) :
    accepted ((x, b) :: vs) = if b then x :: accepted vs else accepted vs := by
  cases b <;> simp [accepted]

@[simp] theorem rejected_cons (x : K × V) (b : Bool) (vs : List ((K × V) × Bool)) :
    rejected ((x, b) :: vs) = if b then rejected vs else x :: rejected vs := by
  cases b <;> simp [rejected]

theorem length_accepted_scan : ∀ (s : σ) (l : List (K × V)), (accepted (scan f s l).1).length ≤ l.length
  | _, [] => le_rfl
  | s, (k, v) :: l => by
    have := length_accepted_scan (f s k v).1 l
    cases h : (f s k v).2.2 <;> simp [scan, h] <;> omega

/-- the rejected entries' keys are among the scanned keys, in order -/
theorem rejected_keys_sublist : ∀ (s : σ) (l : List (K × V)),
    ((rejected (scan f s l).1).map Prod.fst).Sublist (l.map Prod.fst)
  | _, [] => List.Sublist.slnil
  | s, (k, v) :: l => by
    have := rejected_keys_sublist (f s k v).1 l
    cases h : (f s k v).2.2 <;> simp only [scan, h, rejected_cons, List.map_cons, if_true, if_false]
    · exact this.cons₂ k
    · exact this.cons k

end Scan

/-! ## The position model -/

/-- a drain on the position model: the entries visited and kept, those not visited yet, the predicate's state -/
structure ADrain (K V σ : Type) where
  kept : List (K × V)
  rest : List (K × V)
  pred : σ

section Model

variable (f : PredFn σ K V)

/-- `next` on the position model: the predicate is called on the entries not visited, in order, until it accepts
one, which is returned; those it rejects are kept, with the values it left -/
def drainNext : List (K × V) → List (K × V) → σ → Option (K × V) × ADrain K V σ
  | kept, [], s => (none, ⟨kept, [], s⟩)
  | kept, (k, v) :: rest, s =>
    if (f s k v).2.2 then (some (k, (f s k v).2.1), ⟨kept, rest, (f s k v).1⟩)
    else drainNext (kept ++ [(k, (f s k v).2.1)]) rest (f s k v).1

/-- `j` calls of `next` -/
def ADrain.nexts : ℕ → ADrain K V σ → List (Option (K × V)) × ADrain K V σ
  | 0, a => ([], a)
  | j + 1, a =>
    ((drainNext f a.kept a.rest a.pred).1 :: (ADrain.nexts j (drainNext f a.kept a.rest a.pred).2).1,
      (ADrain.nexts j (drainNext f a.kept a.rest a.pred).2).2)

/-- what the drain ends with: the entries it keeps, those it will still return, the predicate's final state -/
def ADrain.outcome (a : ADrain K V σ) : List (K × V) × List (K × V) × σ :=
  (a.kept ++ rejected (scan f a.pred a.rest).1, accepted (scan f a.pred a.rest).1, (scan f a.pred a.rest).2)

/-- **One call of `next`.** It leaves the entries the drain ends with and the predicate's final state alone, and
returns the first of the entries still to be returned; when it returns `None`, nothing is left to visit. -/
theorem drainNext_outcome : ∀ (kept rest : List (K × V)) (s : σ),
    (ADrain.outcome f ⟨kept, rest, s⟩).1 = ((drainNext f kept rest s).2.outcome f).1 ∧
      (ADrain.outcome f ⟨kept, rest, s⟩).2.1 =
        (drainNext f kept rest s).1.toList ++ ((drainNext f kept rest s).2.outcome f).2.1 ∧
      (ADrain.outcome f ⟨kept, rest, s⟩).2.2 = ((drainNext f kept rest s).2.outcome f).2.2 ∧
      ((drainNext f kept rest s).1 = none → (drainNext f kept rest s).2.rest = [])
  | _, [], _ => ⟨rfl, rfl, rfl, fun _ => rfl⟩
  | kept, (k, v) :: rest, s => by
    cases h : (f s k v).2.2
    · have ih := drainNext_outcome (kept ++ [(k, (f s k v).2.1)]) rest (f s k v).1
      simp only [drainNext, h, ADrain.outcome, scan, rejected_cons, accepted_cons, if_false] at ih ⊢
      simpa using ih
    · simp [drainNext, h, ADrain.outcome, scan]

/-- **`j` calls of `next`.** They return the first `j` entries still to be returned, then `None`; the entries the
drain ends with and the predicate's final state stay, and what is left to return is what follows the first `j`. -/
theorem nexts_outcome : ∀ (j : ℕ) (a : ADrain K V σ),
    (a.nexts f j).1 = ((a.outcome f).2.1.take j).map some ++ List.replicate (j - (a.outcome f).2.1.length) none ∧
      ((a.nexts f j).2.outcome f).1 = (a.outcome f).1 ∧
      ((a.nexts f j).2.outcome f).2.1 = (a.outcome f).2.1.drop j ∧
      ((a.nexts f j).2.outcome f).2.2 = (a.outcome f).2.2
  | 0, a => by simp [ADrain.nexts]
  | j + 1, ⟨kept, rest, s⟩ => by
    have hn := drainNext_outcome f kept rest s
    simp only [ADrain.nexts]
    generalize drainNext f kept rest s = d at hn ⊢
    obtain ⟨o, a'⟩ := d
    obtain ⟨h1, h2, h3, h4⟩ := hn
    obtain ⟨ih1, ih2, ih3, ih4⟩ := nexts_outcome j a'
    dsimp only at h1 h2 h3 h4 ⊢
    rw [ih1, ih2, ih3, ih4, h1, h2, h3]
    rcases o with _ | x
    · have : (a'.outcome f).2.1 = [] := by rw [ADrain.outcome, h4 rfl]; rfl
      simp [this, List.replicate_succ]
    · simp

end Model

/-! ## The iterator -/

/-- `DrainFilter` with its `DrainFilterInner`: the borrowed map, its length field updated live; the leaf edge
before the next element to visit, `None` once past the last or for a rootless map; the predicate's state -/
structure DrainFilter (K V σ : Type) where
  map : BTreeMap K V
  curLeafEdge : Option Handle
  pred : σ

/-- `drain_filter(pred)`: the edge at the first leaf edge of the root, if any -/
def BTreeMap.drainFilter (m : BTreeMap K V) (pred : σ) : DrainFilter K V σ :=
  ⟨m, m.root.map fun r => firstLeafEdge r.height r.node, pred⟩

namespace DrainFilter

variable (L : NodeLayer K V) (f : PredFn σ K V)

/-- the `while let` loop of `DrainFilterInner::next`, for at most `fuel` turns: the slot after the edge, the
predicate called on its pair through `kv_mut` (its value written back); an accepted pair is removed by
`remove_kv_tracking` and returned, the length field lowered and the edge left where it stood; a rejected one is
stepped over. Past the last slot the edge is dropped and `None` returned. -/
def nextLoop : ℕ → DrainFilter K V σ → Option (K × V) × DrainFilter K V σ
  | 0, d => (none, { d with curLeafEdge := none })
  | fuel + 1, d =>
    match d.curLeafEdge, d.map.root with
    | some e, some r =>
      match nextKv r.node e with
      | none => (none, { d with curLeafEdge := none })
      | some kv =>
        match kvAt r.node kv with
        | none => (none, { d with curLeafEdge := none })
        | some (k, v) =>
          let r' := r.setVal kv (f d.pred k v).2.1
          if (f d.pred k v).2.2 then
            ((L.removeKvTracking r' kv).1,
              ⟨⟨some (L.removeKvTracking r' kv).2.1, d.map.length - 1⟩, some (L.removeKvTracking r' kv).2.2,
                (f d.pred k v).1⟩)
          else nextLoop fuel ⟨⟨some r', d.map.length⟩, some (nextLeafEdge r'.height r'.node kv), (f d.pred k v).1⟩
    | _, _ => (none, { d with curLeafEdge := none })

/-- `next`: the loop, with a turn for every element of the map and one more -/
def next (d : DrainFilter K V σ) : Option (K × V) × DrainFilter K V σ := nextLoop L f (d.map.entries.length + 1) d

/-- `j` calls of `next` -/
def nexts : ℕ → DrainFilter K V σ → List (Option (K × V)) × DrainFilter K V σ
  | 0, d => ([], d)
  | j + 1, d => ((next L f d).1 :: (nexts j (next L f d).2).1, (nexts j (next L f d).2).2)

/-- `for_each(drop)`: `next` until it returns `None`, at most `fuel` times -/
def dropLoop : ℕ → DrainFilter K V σ → DrainFilter K V σ
  | 0, d => d
  | fuel + 1, d =>
    match (next L f d).1 with
    | none => (next L f d).2
    | some _ => dropLoop fuel (next L f d).2

/-- `Drop`: `self.for_each(drop)`, with a call for every element of the map and one more -/
def drop (d : DrainFilter K V σ) : DrainFilter K V σ := dropLoop L f (d.map.entries.length + 1) d

/-- `DrainFilterInner::peek` (what `Debug` prints): `next_kv` from the edge, `None` without an edge or past the last
slot -/
def peek (d : DrainFilter K V σ) : Option (K × V) :=
  d.curLeafEdge.bind fun e => d.map.root.bind fun r => (nextKv r.node e).bind (kvAt r.node)

/-- `DrainFilterInner::size_hint`: `(0, Some(*self.length))`, the length field counting the entries visited and
kept as well -/
def sizeHint (d : DrainFilter K V σ) : ℕ × Option ℕ := (0, some d.map.length)

end DrainFilter

/-- `retain(f)`: `drain_filter(|k, v| !f(k, v))`, dropped at once; the map, and the predicate's state after -/
def BTreeMap.retain (L : NodeLayer K V) (f : PredFn σ K V) (m : BTreeMap K V) (s : σ) : BTreeMap K V × σ :=
  ((DrainFilter.drop L (fun s k v => ((f s k v).1, (f s k v).2.1, !(f s k v).2.2)) (m.drainFilter s)).map,
    (DrainFilter.drop L (fun s k v => ((f s k v).1, (f s k v).2.1, !(f s k v).2.2)) (m.drainFilter s)).pred)

/-! ## The iterator refines the position model -/

namespace DrainFilter

/-- the drain stands between `a.kept` and `a.rest`: the tree holds both in order with the edge at the gap, the
length field counts both, and the predicate is in state `a.pred`; with no edge, nothing is left to visit -/
structure At (d : DrainFilter K V σ) (a : ADrain K V σ) : Prop where
  entries_eq : d.map.entries = a.kept ++ a.rest
  length_eq : d.map.length = a.kept.length + a.rest.length
  edge : ∀ e ∈ d.curLeafEdge, ∃ r, d.map.root = some r ∧ r.IsLeafEdge e ∧ r.rank e = a.kept.length
  done : d.curLeafEdge = none → a.rest = []
  pred_eq : d.pred = a.pred

section Refine

variable {L : NodeLayer K V} {f : PredFn σ K V}

/-- from an edge before `(k, v)`, the next slot holds `(k, v)` -/
theorem visit_spec {r : Root K V} {e : Handle} {kept rest : List (K × V)} {k : K} {v : V}
    (hi : r.inorder = kept ++ (k, v) :: rest) (he : r.IsLeafEdge e) (hr : r.rank e = kept.length) :
    ∃ kv, nextKv r.node e = some kv ∧ r.IsKV kv ∧ r.rank kv = kept.length ∧ kvAt r.node kv = some (k, v) := by
  have := nextKv_spec r.shaped he
  generalize nextKv r.node e = res at this ⊢
  cases res with
  | none =>
    have h : r.rank e = r.inorder.length := this
    rw [hi, hr] at h
    simp at h
  | some kv =>
    have hk : r.rank kv = kept.length := this.2.trans hr
    exact ⟨kv, rfl, this.1, hk, by rw [r.kvAt_eq this.1, hk, hi, List.getElem?_append_right le_rfl]; simp⟩

/-- from the edge after the last pair, there is no next slot -/
theorem nextKv_end {r : Root K V} {e : Handle} (he : r.IsLeafEdge e) (hr : r.rank e = r.inorder.length) :
    nextKv r.node e = none := by
  have := nextKv_spec r.shaped he
  generalize nextKv r.node e = res at this ⊢
  cases res with
  | none => rfl
  | some kv => exact absurd (this.2.trans hr ▸ r.rank_lt this.1) (lt_irrefl _)

/-- one turn of the loop from the edge before `(k, v)`: the predicate is called on it and its value written back;
an accepted pair is returned with the drain standing past it, a rejected one is stepped over and the loop goes
on -/
theorem nextLoop_turn {d : DrainFilter K V σ} {kept rest : List (K × V)} {k : K} {v : V} {s : σ} (fuel : ℕ)
    (hd : d.At ⟨kept, (k, v) :: rest, s⟩) :
    ((f s k v).2.2 = true ∧ (nextLoop L f (fuel + 1) d).1 = some (k, (f s k v).2.1) ∧
      (nextLoop L f (fuel + 1) d).2.At ⟨kept, rest, (f s k v).1⟩) ∨
    ((f s k v).2.2 = false ∧ ∃ d' : DrainFilter K V σ, nextLoop L f (fuel + 1) d = nextLoop L f fuel d' ∧
      d'.At ⟨kept ++ [(k, (f s k v).2.1)], rest, (f s k v).1⟩) := by
  obtain ⟨⟨root, n⟩, edge, p⟩ := d
  cases edge with
  | none => cases hd.done rfl
  | some e =>
    obtain ⟨r, hr, he, hrank⟩ := hd.edge e rfl
    cases hr
    obtain rfl : p = s := hd.pred_eq
    have hn : n = kept.length + (rest.length + 1) := by simpa using hd.length_eq
    obtain ⟨kv, hkv, hkkv, hkr, hx⟩ := visit_spec hd.entries_eq he hrank
    have hkv' := r.isKV_setVal hkkv (f p k v).2.1
    have hkr' : (r.setVal kv (f p k v).2.1).rank kv = kept.length := by rw [Root.rank_setVal, hkr]
    have hi' : (r.setVal kv (f p k v).2.1).inorder = kept ++ (k, (f p k v).2.1) :: rest := by
      rw [r.inorder_setVal hkkv, hkr, show r.inorder = _ from hd.entries_eq, modify_append_length]
    rw [nextLoop]
    simp only [hkv, hx]
    cases hb : (f p k v).2.2
    · -- rejected: the edge moves past the written-back pair
      obtain ⟨hle, hlr⟩ := nextLeafEdge_spec (r.setVal kv (f p k v).2.1).shaped hkv'
      refine .inr ⟨rfl, _, rfl, by simpa using hi', by simp [hn]; omega, fun e' h => ?_, fun h => (by cases h), rfl⟩
      cases h
      exact ⟨_, rfl, hle, (hlr.trans (congrArg (· + 1) hkr')).trans (by simp)⟩
    · -- accepted: the pair is removed and the edge stays at the gap
      obtain ⟨hle, hlr⟩ := L.remove_handle _ kv hkv'
      have hout := L.remove_inorder _ kv hkv'
      rw [hkr', hi'] at hout
      refine .inl ⟨rfl, ?_, ?_⟩
      · simp only [if_true]
        rw [L.remove_pair _ kv hkv', (r.setVal kv (f p k v).2.1).kvAt_eq hkv', hkr', hi',
          List.getElem?_append_right le_rfl]
        simp
      · simp only [if_true]
        refine ⟨by simpa using hout, by simp [hn], fun e' h => ?_, fun h => (by cases h), rfl⟩
        cases h
        exact ⟨_, rfl, hle, hlr.trans hkr'⟩

/-- with more turns than pairs after the edge, the loop returns what `drainNext` returns and stands where it
stands -/
theorem nextLoop_spec : ∀ (rest kept : List (K × V)) (s : σ) {d : DrainFilter K V σ} {fuel : ℕ},
    d.At ⟨kept, rest, s⟩ → rest.length < fuel →
    (nextLoop L f fuel d).1 = (drainNext f kept rest s).1 ∧ (nextLoop L f fuel d).2.At (drainNext f kept rest s).2
  | [], kept, s, ⟨⟨root, n⟩, none, p⟩, fuel + 1, hd, _ => ⟨rfl, hd⟩
  | [], kept, s, ⟨⟨root, n⟩, some e, p⟩, fuel + 1, hd, _ => by
    obtain ⟨r, hr, he, hrank⟩ := hd.edge e rfl
    cases hr
    rw [nextLoop]
    dsimp only
    rw [nextKv_end he (by rw [hrank, show r.inorder = _ from hd.entries_eq, List.append_nil])]
    exact ⟨rfl, ⟨hd.entries_eq, hd.length_eq, fun _ h => (by cases h), fun _ => rfl, hd.pred_eq⟩⟩
  | (k, v) :: rest, kept, s, d, fuel + 1, hd, hfuel => by
    rcases nextLoop_turn (L := L) (f := f) fuel hd with ⟨hb, h1, h2⟩ | ⟨hb, d', heq, hd'⟩
    · simpa [drainNext, hb] using And.intro h1 h2
    · rw [heq]
      simpa [drainNext, hb] using nextLoop_spec rest _ _ hd' (by simpa using hfuel)

/-- `peek` returns the first entry not visited yet -/
theorem peek_spec {d : DrainFilter K V σ} {a : ADrain K V σ} (hd : d.At a) : d.peek = a.rest.head? := by
  obtain ⟨⟨root, n⟩, edge, p⟩ := d
  cases edge with
  | none => rw [hd.done rfl]; rfl
  | some e =>
    obtain ⟨r, hr, he, hrank⟩ := hd.edge e rfl
    cases hr
    show (nextKv r.node e).bind (kvAt r.node) = _
    rcases a with ⟨kept, _ | ⟨⟨k, v⟩, rest⟩, s⟩
    · rw [nextKv_end he (by rw [hrank, show r.inorder = _ from hd.entries_eq, List.append_nil])]; rfl
    · obtain ⟨kv, hkv, -, -, hx⟩ := visit_spec hd.entries_eq he hrank
      rw [hkv, Option.some_bind, hx]; rfl

theorem next_spec {d : DrainFilter K V σ} {a : ADrain K V σ} (hd : d.At a) :
    (next L f d).1 = (drainNext f a.kept a.rest a.pred).1 ∧ (next L f d).2.At (drainNext f a.kept a.rest a.pred).2 :=
  nextLoop_spec a.rest a.kept a.pred hd (by rw [hd.entries_eq, List.length_append]; omega)

theorem nexts_spec : ∀ (j : ℕ) {d : DrainFilter K V σ} {a : ADrain K V σ}, d.At a →
    (nexts L f j d).1 = (a.nexts f j).1 ∧ (nexts L f j d).2.At (a.nexts f j).2
  | 0, _, _, hd => ⟨rfl, hd⟩
  | j + 1, _, _, hd => by
    obtain ⟨h1, h2⟩ := next_spec hd
    obtain ⟨ih1, ih2⟩ := nexts_spec j h2
    exact ⟨by rw [nexts, ADrain.nexts, h1, ih1], ih2⟩

/-- the drop calls `next` until it returns `None`: the drain ends with no edge, holding the entries the position
model ends with, the predicate in its final state -/
theorem dropLoop_spec : ∀ (fuel : ℕ) {d : DrainFilter K V σ} {a : ADrain K V σ}, d.At a →
    (a.outcome f).2.1.length < fuel → (dropLoop L f fuel d).At ⟨(a.outcome f).1, [], (a.outcome f).2.2⟩
  | fuel + 1, d, ⟨kept, rest, s⟩, hd, hfuel => by
    obtain ⟨h1, h2, h3, h4⟩ := drainNext_outcome f kept rest s
    obtain ⟨hn1, hn2⟩ := next_spec (L := L) hd
    rw [dropLoop]
    generalize (next L f d) = x at hn1 hn2 ⊢
    obtain ⟨o, d'⟩ := x
    dsimp only at hn1 hn2 ⊢
    subst hn1
    generalize drainNext f kept rest s = y at h1 h2 h3 h4 hn2 ⊢
    obtain ⟨o, a'⟩ := y
    dsimp only at h1 h2 h3 h4 hn2 ⊢
    rw [h1, h3]
    rcases o with _ | x
    · obtain ⟨kept', rest', s'⟩ := a'
      obtain rfl : rest' = [] := h4 rfl
      simpa [ADrain.outcome, scan] using hn2
    · exact dropLoop_spec fuel hn2 (by rw [h2] at hfuel; simpa using hfuel)

theorem drop_spec {d : DrainFilter K V σ} {a : ADrain K V σ} (hd : d.At a) :
    (drop L f d).At ⟨(a.outcome f).1, [], (a.outcome f).2.2⟩ :=
  dropLoop_spec _ hd (by
    have := length_accepted_scan f a.pred a.rest
    rw [hd.entries_eq, List.length_append]
    simp only [ADrain.outcome]
    omega)

end Refine

end DrainFilter

/-! ## `drain_filter` on a map -/

section Map

variable {κ : Type} [LinearOrder κ] {key : K → κ}

theorem drainFilter_at {m : BTreeMap K V} (hI : Inv key m) (s : σ) : (m.drainFilter s).At ⟨[], m.entries, s⟩ := by
  refine ⟨rfl, hI.length_eq.trans (Nat.zero_add _).symm, fun e h => ?_, fun h => ?_, rfl⟩
  · rcases m with ⟨_ | r, n⟩
    · cases h
    · cases h
      exact ⟨r, rfl, (firstLeafEdge_spec r.shaped).1, (firstLeafEdge_spec r.shaped).2⟩
  · rcases m with ⟨_ | r, n⟩
    · rfl
    · cases h

/-- **`drain_filter`, `j` calls of `next`, then the drop.** On a map whose length field counts its entries and whose
keys strictly ascend: the `j` calls return the first `j` entries `pred` accepts, with the values it left, and then
`None`; afterwards `pred` is in the state it reaches when called once on each entry in key order; the map holds
exactly the entries it rejected, with the values it left, in the same order, so still ascending, and its length
field counts them. -/
theorem drain_filter_then_drop (L : NodeLayer K V) (f : PredFn σ K V) (m : BTreeMap K V) (hI : Inv key m) (s : σ)
    (j : ℕ) :
    (DrainFilter.nexts L f j (m.drainFilter s)).1 =
        ((accepted (scan f s m.entries).1).take j).map some ++
          List.replicate (j - (accepted (scan f s m.entries).1).length) none ∧
      (DrainFilter.drop L f (DrainFilter.nexts L f j (m.drainFilter s)).2).pred = (scan f s m.entries).2 ∧
      (DrainFilter.drop L f (DrainFilter.nexts L f j (m.drainFilter s)).2).map.entries =
        rejected (scan f s m.entries).1 ∧
      Inv key (DrainFilter.drop L f (DrainFilter.nexts L f j (m.drainFilter s)).2).map := by
  have h0 := drainFilter_at hI s
  obtain ⟨hj1, hj2⟩ := DrainFilter.nexts_spec (L := L) (f := f) j h0
  obtain ⟨o1, o2, -, o4⟩ := nexts_outcome f j ⟨[], m.entries, s⟩
  have hd := DrainFilter.drop_spec (L := L) (f := f) hj2
  rw [o2, o4] at hd
  simp only [ADrain.outcome, List.nil_append] at hj1 o1 hd
  have he : (DrainFilter.drop L f (DrainFilter.nexts L f j (m.drainFilter s)).2).map.entries =
      rejected (scan f s m.entries).1 := by rw [hd.entries_eq, List.append_nil]
  refine ⟨hj1.trans o1, hd.pred_eq, he, ⟨by rw [hd.length_eq, he]; rfl, ?_⟩⟩
  rw [he]
  exact hI.ascending.sublist (rejected_keys_sublist f s m.entries)

/-- a predicate that logs each key it is called on, adds one to each value, and accepts the even keys -/
def logEvens : PredFn (List ℕ) ℕ ℕ := fun log k v => (log ++ [k], v + 1, k % 2 == 0)

/-- one call of `next` returns `(2, 21)`; after the drop the log is `1, 2, 3, 4` and the map holds `(1, 11)` and
`(3, 31)` -/
theorem drain_filter_then_drop_evens :
    Inv id fourEntries ∧
      (DrainFilter.nexts flatLayer logEvens 1 (fourEntries.drainFilter [])).1 = [some (2, 21)] ∧
      (DrainFilter.drop flatLayer logEvens (DrainFilter.nexts flatLayer logEvens 1 (fourEntries.drainFilter [])).2).pred =
        [1, 2, 3, 4] ∧
      (DrainFilter.drop flatLayer logEvens
        (DrainFilter.nexts flatLayer logEvens 1 (fourEntries.drainFilter [])).2).map.entries = [(1, 11), (3, 31)] :=
  have hI : Inv id fourEntries := ⟨rfl, by decide⟩
  have h := drain_filter_then_drop flatLayer logEvens fourEntries hI [] 1
  ⟨hI, h.1.trans (by decide), h.2.1.trans (by decide), h.2.2.1.trans (by decide)⟩

/-- `j` calls of `next` return at most as many entries as the drain has still to return -/
theorem countP_isSome_nexts (f : PredFn σ K V) (j : ℕ) (a : ADrain K V σ) :
    (a.nexts f j).1.countP Option.isSome ≤ (a.outcome f).2.1.length := by
  rw [(nexts_outcome f j a).1, List.countP_append, List.countP_map]
  simp only [List.countP_replicate, Option.isSome_none, Bool.false_eq_true, if_false, Nat.add_zero]
  exact (List.countP_le_length _).trans (List.length_take_le' _ _)

/-- **`peek` and `size_hint` along a drain.** On a map whose length field counts its entries and whose keys strictly
ascend, after any number `j` of calls of `next` on `drain_filter(pred)`: `peek` returns the next entry `pred` is to
be called on, the first the position model has not visited (`None` when all are visited); and `size_hint` is
`(0, Some(n))` with `n` at least the number of entries any number `k` of further calls of `next` return. -/
theorem drain_filter_peek_size_hint (L : NodeLayer K V) (f : PredFn σ K V) (m : BTreeMap K V) (hI : Inv key m)
    (s : σ) (j k : ℕ) :
    (DrainFilter.nexts L f j (m.drainFilter s)).2.peek = ((ADrain.nexts f j ⟨[], m.entries, s⟩).2).rest.head? ∧
      (DrainFilter.nexts L f j (m.drainFilter s)).2.sizeHint.1 = 0 ∧
      ∀ n ∈ (DrainFilter.nexts L f j (m.drainFilter s)).2.sizeHint.2,
        (DrainFilter.nexts L f k (DrainFilter.nexts L f j (m.drainFilter s)).2).1.countP Option.isSome ≤ n := by
  obtain ⟨-, hd⟩ := DrainFilter.nexts_spec (L := L) (f := f) j (drainFilter_at hI s)
  refine ⟨DrainFilter.peek_spec hd, rfl, fun n hn => ?_⟩
  cases hn
  obtain ⟨hk, -⟩ := DrainFilter.nexts_spec (L := L) (f := f) k hd
  have hl := length_accepted_scan f (ADrain.nexts f j ⟨[], m.entries, s⟩).2.pred
    (ADrain.nexts f j ⟨[], m.entries, s⟩).2.rest
  rw [hk, hd.length_eq]
  exact (countP_isSome_nexts f k _).trans (hl.trans (Nat.le_add_left _ _))

/-- after the call on `fourEntries` that returns `(2, 21)`, `peek` returns `(3, 30)` -/
theorem drain_filter_peek_evens :
    Inv id fourEntries ∧
      (DrainFilter.nexts flatLayer logEvens 1 (fourEntries.drainFilter [])).2.peek = some (3, 30) :=
  have hI : Inv id fourEntries := ⟨rfl, by decide⟩
  ⟨hI, (drain_filter_peek_size_hint flatLayer logEvens fourEntries hI [] 1 0).1.trans (by decide)⟩

/-! ## `retain` -/

/-- the predicate `retain` drains with: `!f` -/
theorem scan_not (f : PredFn σ K V) : ∀ (s : σ) (l : List (K × V)),
    scan (fun s k v => ((f s k v).1, (f s k v).2.1, !(f s k v).2.2)) s l =
      ((scan f s l).1.map fun x => (x.1, !x.2), (scan f s l).2)
  | _, [] => rfl
  | s, (k, v) :: l => by simp [scan, scan_not f _ l]

theorem rejected_map_not (vs : List ((K × V) × Bool)) : rejected (vs.map fun x => (x.1, !x.2)) = accepted vs := by
  induction vs with
  | nil => rfl
  | cons x vs ih => obtain ⟨x, b⟩ := x; cases b <;> simp [ih]

/-- **`retain(f)`.** On a map whose length field counts its entries and whose keys strictly ascend, `f` is called
once on each entry in key order; the map keeps exactly the entries it accepts, with the values it left, still
ascending, and its length field counts them. -/
theorem retain_spec (L : NodeLayer K V) (f : PredFn σ K V) (m : BTreeMap K V) (hI : Inv key m) (s : σ) :
    (m.retain L f s).2 = (scan f s m.entries).2 ∧ (m.retain L f s).1.entries = accepted (scan f s m.entries).1 ∧
      Inv key (m.retain L f s).1 := by
  have hd := DrainFilter.drop_spec (L := L) (f := fun s k v => ((f s k v).1, (f s k v).2.1, !(f s k v).2.2))
    (drainFilter_at hI s)
  simp only [ADrain.outcome, List.nil_append, scan_not, rejected_map_not] at hd
  have he : (m.retain L f s).1.entries = accepted (scan f s m.entries).1 := by
    rw [BTreeMap.retain, hd.entries_eq, List.append_nil]
  refine ⟨hd.pred_eq, he, by rw [BTreeMap.retain, hd.length_eq, ← BTreeMap.retain, he]; rfl, ?_⟩
  have ha : accepted (scan f s m.entries).1 =
      rejected (scan (fun s k v => ((f s k v).1, (f s k v).2.1, !(f s k v).2.2)) s m.entries).1 := by
    rw [scan_not, rejected_map_not]
  rw [he, ha]
  exact hI.ascending.sublist (rejected_keys_sublist _ s m.entries)

/-- `retain` with `logEvens` on `fourEntries` keeps the even keys, their values raised by one -/
theorem retain_spec_evens :
    Inv id fourEntries ∧ (fourEntries.retain flatLayer logEvens []).1.entries = [(2, 21), (4, 41)] :=
  have hI : Inv id fourEntries := ⟨rfl, by decide⟩
  ⟨hI, (retain_spec flatLayer logEvens fourEntries hI []).2.1.trans (by decide)⟩

end Map

end BtreeMonstrousity
