import BtreeMonstrousity.Map
import BtreeMonstrousity.Bifurcation

/-!
The cursor of `BTreeMap` (`CursorMut`, map.rs) over a tree whose node layer is the contract `NodeLayer`, and the
position model it refines.

- `ACursor`: entries `e_0, ..., e_{n-1}` and a position in `{0, ..., n-1}`, or the ghost (`none`); what each
  operation does to it, as the cursor's documentation says.
- `CursorMut`: the map it borrows and its current slot, `None` at the ghost. The read-only `Cursor` has the same
  bodies for `move_next`, `move_prev` and `key_value`, and `as_cursor` commutes with them.
- `CursorMut.abs`: a cursor's position is the rank of its slot in the in-order sequence.

`cursor_refines_positions`: from every cursor whose slot is a slot of its tree and whose length field counts the
entries, every run of `move_next`, `move_prev`, `remove_current`, `remove_current_and_move_back`,
`insert_after_unchecked` and `insert_before_unchecked` returns what the position model returns and ends where it
ends; a move forward then back (or back then forward) is the identity, and `n + 1` moves one way return to the
start. Each operation reduces, by its step lemma, to the rank specs of `Navigate` and the node layer's contract.

`cursor_peeks_clone_and_move`: `Cursor`'s peeks clone and move, so they return the neighbours of the current
position; `CursorMut`'s re-walk the tree and agree with them, except `peek_prev` at the ghost, which walks forward
from the first leaf edge and returns the first element where the last is meant (`cursor_peek_prev_ghost`).

`lowerBoundMut_spec`, `upperBoundMut_spec`: `lower_bound(_mut)` and `upper_bound(_mut)` (the node-level descent
of `Bifurcation`, then `next_kv` / `next_back_kv`) give a well-formed cursor at the first entry the bound admits,
or at the last one, and the ghost when there is none.

`cursor_edits_refine_positions`: the same over sequences that mix those operations with writes through the current
slot (`CursorEdit`). `keyValueMut_spec`: a write through `value_mut` or `key_value_mut` (`writeCurrent`, on positions `modifyCurrent`)
leaves a well-formed cursor at its position and keeps the map's invariant, rebinding the current key only.
`keyMutUnchecked_ordered_iff`: a key written through `key_mut_unchecked` keeps the keys ascending exactly when it
sorts strictly between the keys of the entries `peek_prev` and `peek_next` return.

`insert_after` and `insert_before` bound their key by `peek_prev`, which at the ghost walks forward to the first
element (`peekPrev_eq`). So `insert_after` compares with the element before the current one, where the next
element is meant, and `insert_before` at the ghost compares with the first element, where the last is meant
(`cursor_insert_checks`).
-/

namespace BtreeMonstrousity

variable {K V : Type}

/-! ## The position model -/

/-- `move_next` on positions: the ghost goes to the first element, the last element to the ghost -/
def posNext (n : ℕ) : Option ℕ → Option ℕ
  | none => if 0 < n then some 0 else none
  | some i => if i + 1 < n then some (i + 1) else none

/-- `move_prev` on positions: the ghost goes to the last element, the first element to the ghost -/
def posPrev (n : ℕ) : Option ℕ → Option ℕ
  | none => if 0 < n then some (n - 1) else none
  | some i => if 0 < i then some (i - 1) else none

/-- a cursor over the entries `e_0, ..., e_{n-1}`, at a position or (`none`) at the ghost -/
structure ACursor (K V : Type) where
  entries : List (K × V)
  pos : Option ℕ

/-- the operations of a cursor modelled here -/
inductive CursorOp (K V : Type)
  | moveNext
  | movePrev
  | removeCurrent
  | removeCurrentAndMoveBack
  | insertAfterUnchecked (key : K) (value : V)
  | insertBeforeUnchecked (key : K) (value : V)

/-- an operation, or a write through the reference `value_mut`, `key_value_mut` or `key_mut_unchecked` returns -/
inductive CursorEdit (K V : Type)
  | op (o : CursorOp K V)
  | write (g : K × V → K × V)

namespace ACursor

variable (a : ACursor K V)

/-- the position is the ghost or the index of an entry -/
def Valid : Prop := ∀ i ∈ a.pos, i < a.entries.length

def moveNext : ACursor K V := ⟨a.entries, posNext a.entries.length a.pos⟩

def movePrev : ACursor K V := ⟨a.entries, posPrev a.entries.length a.pos⟩

/-- the current entry, `None` at the ghost -/
def keyValue : Option (K × V) := a.pos.bind (a.entries[·]?)

/-- out goes the current entry, the cursor moving to the one that followed it; nothing at the ghost -/
def removeCurrent : Option (K × V) × ACursor K V :=
  match a.pos with
  | none => (none, a)
  | some i => (a.entries[i]?,
      ⟨a.entries.take i ++ a.entries.drop (i + 1), if i + 1 < a.entries.length then some i else none⟩)

/-- out goes the current entry, the cursor moving to the one that preceded it; nothing at the ghost -/
def removeCurrentAndMoveBack : Option (K × V) × ACursor K V :=
  match a.pos with
  | none => (none, a)
  | some i => (a.entries[i]?, ⟨a.entries.take i ++ a.entries.drop (i + 1), if 0 < i then some (i - 1) else none⟩)

/-- the pair goes in right after the current entry (first from the ghost); the cursor stays -/
def insertAfter (k : K) (v : V) : ACursor K V :=
  match a.pos with
  | none => ⟨(k, v) :: a.entries, none⟩
  | some i => ⟨a.entries.take (i + 1) ++ (k, v) :: a.entries.drop (i + 1), some i⟩

/-- the pair goes in right before the current entry (last from the ghost); the cursor stays -/
def insertBefore (k : K) (v : V) : ACursor K V :=
  match a.pos with
  | none => ⟨a.entries ++ [(k, v)], none⟩
  | some i => ⟨a.entries.take i ++ (k, v) :: a.entries.drop i, some (i + 1)⟩

/-- a write through a reference to the current entry: it becomes `g` of itself; nothing at the ghost -/
def modifyCurrent (g : K × V → K × V) : ACursor K V :=
  match a.pos with
  | none => a
  | some i => ⟨a.entries.modify g i, some i⟩

/-- one operation: what it returns (the removed pair, else `None`) and the cursor after -/
def step : CursorOp K V → Option (K × V) × ACursor K V
  | .moveNext => (none, a.moveNext)
  | .movePrev => (none, a.movePrev)
  | .removeCurrent => a.removeCurrent
  | .removeCurrentAndMoveBack => a.removeCurrentAndMoveBack
  | .insertAfterUnchecked k v => (none, a.insertAfter k v)
  | .insertBeforeUnchecked k v => (none, a.insertBefore k v)

/-- a sequence of operations: what each returns, and the cursor at the end -/
def run (a : ACursor K V) : List (CursorOp K V) → List (Option (K × V)) × ACursor K V
  | [] => ([], a)
  | o :: os => ((a.step o).1 :: ((a.step o).2.run os).1, ((a.step o).2.run os).2)

/-- one edit: an operation, or a write, which returns `None` -/
def edit : CursorEdit K V → Option (K × V) × ACursor K V
  | .op o => a.step o
  | .write g => (none, a.modifyCurrent g)

/-- a sequence of edits: what each returns, and the cursor at the end -/
def editRun (a : ACursor K V) : List (CursorEdit K V) → List (Option (K × V)) × ACursor K V
  | [] => ([], a)
  | e :: es => ((a.edit e).1 :: ((a.edit e).2.editRun es).1, ((a.edit e).2.editRun es).2)

theorem run_eq_editRun (a : ACursor K V) : ∀ ops, a.run ops = a.editRun (ops.map .op)
  | [] => rfl
  | o :: os => by rw [run, List.map_cons, editRun, edit, run_eq_editRun _ os]

end ACursor

/-! ## Moves on positions -/

section Positions

variable {n : ℕ} {p : Option ℕ}

theorem posPrev_posNext (hp : ∀ i ∈ p, i < n) : posPrev n (posNext n p) = p := by
  rcases p with _ | i
  · by_cases h : 0 < n <;> simp [posNext, posPrev, h]
  · have := hp i rfl
    by_cases h : i + 1 < n
    · simp [posNext, posPrev, h]
    · simp [posNext, posPrev, h, show 0 < n by omega, show n - 1 = i by omega]

theorem posNext_posPrev (hp : ∀ i ∈ p, i < n) : posNext n (posPrev n p) = p := by
  rcases p with _ | i
  · by_cases h : 0 < n
    · simp [posNext, posPrev, h, show n - 1 + 1 = n by omega]
    · simp [posNext, posPrev, h]
  · have := hp i rfl
    by_cases h : 0 < i
    · simp [posNext, posPrev, h, show i - 1 + 1 = i by omega, show i < n by omega]
    · simp [posNext, posPrev, h, show i = 0 by omega, show 0 < n by omega]

theorem posNext_valid (hp : ∀ i ∈ p, i < n) : ∀ i ∈ posNext n p, i < n := by
  intro j hj
  rcases p with _ | i <;> simp only [posNext] at hj <;> split_ifs at hj with h <;> cases hj <;> omega

theorem posPrev_valid (hp : ∀ i ∈ p, i < n) : ∀ i ∈ posPrev n p, i < n := by
  intro j hj
  rcases p with _ | i
  · simp only [posPrev] at hj; split_ifs at hj with h <;> cases hj; omega
  · have := hp i rfl
    simp only [posPrev] at hj; split_ifs at hj with h <;> cases hj; omega

/-- the ghost counted as `n`, a position is below `n + 1` -/
theorem getD_lt (hp : ∀ i ∈ p, i < n) : p.getD n < n + 1 := by
  rcases p with _ | i
  · exact Nat.lt_succ_self n
  · exact Nat.lt_succ_of_lt (hp i rfl)

/-- so counted, the positions form a cycle that `move_next` steps forward -/
theorem getD_posNext (hp : ∀ i ∈ p, i < n) : (posNext n p).getD n = (p.getD n + 1) % (n + 1) := by
  rcases p with _ | i
  · by_cases h : 0 < n
    · simp [posNext, h]
    · simp [posNext, h, show n = 0 by omega]
  · have := hp i rfl
    by_cases h : i + 1 < n
    · simp [posNext, h, Nat.mod_eq_of_lt (show i + 1 < n + 1 by omega)]
    · simp [posNext, h, show i + 1 = n by omega]

/-- and `move_prev` steps back, `n` forward -/
theorem getD_posPrev (hp : ∀ i ∈ p, i < n) : (posPrev n p).getD n = (p.getD n + n) % (n + 1) := by
  rcases p with _ | i
  · by_cases h : 0 < n
    · simp [posPrev, h, show n + n = n - 1 + (n + 1) by omega, Nat.mod_eq_of_lt (show n - 1 < n + 1 by omega)]
    · simp [posPrev, h, show n = 0 by omega]
  · have := hp i rfl
    by_cases h : 0 < i
    · simp [posPrev, h, show i + n = i - 1 + (n + 1) by omega, Nat.mod_eq_of_lt (show i - 1 < n + 1 by omega)]
    · simp [posPrev, h, show i = 0 by omega]

theorem eq_of_getD_eq {q : Option ℕ} (hp : ∀ i ∈ p, i < n) (hq : ∀ i ∈ q, i < n) (h : p.getD n = q.getD n) :
    p = q := by
  rcases p with _ | i <;> rcases q with _ | j
  · rfl
  · exact absurd h.symm (hq j rfl).ne
  · exact absurd h (hp i rfl).ne
  · simpa using h

theorem getD_iterate_posNext (hp : ∀ i ∈ p, i < n) :
    ∀ k : ℕ, ((posNext n)^[k] p).getD n = (p.getD n + k) % (n + 1) ∧ ∀ i ∈ (posNext n)^[k] p, i < n
  | 0 => ⟨(Nat.mod_eq_of_lt (getD_lt hp)).symm, hp⟩
  | k + 1 => by
    obtain ⟨ih, hv⟩ := getD_iterate_posNext hp k
    rw [Function.iterate_succ_apply', getD_posNext hv, ih, Nat.mod_add_mod, Nat.add_assoc]
    exact ⟨rfl, posNext_valid hv⟩

theorem getD_iterate_posPrev (hp : ∀ i ∈ p, i < n) :
    ∀ k : ℕ, ((posPrev n)^[k] p).getD n = (p.getD n + n * k) % (n + 1) ∧ ∀ i ∈ (posPrev n)^[k] p, i < n
  | 0 => ⟨(Nat.mod_eq_of_lt (getD_lt hp)).symm, hp⟩
  | k + 1 => by
    obtain ⟨ih, hv⟩ := getD_iterate_posPrev hp k
    rw [Function.iterate_succ_apply', getD_posPrev hv, ih, Nat.mod_add_mod, Nat.add_assoc, Nat.mul_succ]
    exact ⟨rfl, posPrev_valid hv⟩

/-- `n + 1` moves forward return to the start -/
theorem iterate_posNext (hp : ∀ i ∈ p, i < n) : (posNext n)^[n + 1] p = p := by
  obtain ⟨h, hv⟩ := getD_iterate_posNext hp (n + 1)
  rw [Nat.add_mod_right, Nat.mod_eq_of_lt (getD_lt hp)] at h
  exact eq_of_getD_eq hv hp h

/-- `n + 1` moves back return to the start -/
theorem iterate_posPrev (hp : ∀ i ∈ p, i < n) : (posPrev n)^[n + 1] p = p := by
  obtain ⟨h, hv⟩ := getD_iterate_posPrev hp (n + 1)
  rw [Nat.add_mul_mod_self_right, Nat.mod_eq_of_lt (getD_lt hp)] at h
  exact eq_of_getD_eq hv hp h

end Positions

namespace ACursor

variable (a : ACursor K V)

/-- a move forward reaches `e_0` from the ghost, `e_{i+1}` from position `i`, and nothing from the last entry -/
theorem moveNext_keyValue : a.moveNext.keyValue = match a.pos with
    | none => a.entries[0]?
    | some i => a.entries[i + 1]? := by
  rcases a with ⟨l, _ | i⟩ <;> simp only [moveNext, keyValue, posNext] <;> split_ifs <;>
    simp_all [List.getElem?_eq_none]

/-- a move back reaches `e_{n-1}` from the ghost, `e_{i-1}` from position `i`, and nothing from the first entry -/
theorem movePrev_keyValue : a.movePrev.keyValue = match a.pos with
    | none => a.entries.getLast?
    | some i => if i = 0 then none else a.entries[i - 1]? := by
  rcases a with ⟨l, _ | i⟩ <;> simp only [movePrev, keyValue, posPrev, List.getLast?_eq_getElem?] <;> split_ifs <;>
    simp_all [List.getElem?_eq_none]

end ACursor

/-! ## Slots and positions -/

/-- the slot `o` of `r` stands at position `p`: `None` at the ghost, a slot at its rank -/
def SlotAt (r : Root K V) : Option Handle → Option ℕ → Prop
  | none, p => p = none
  | some kv, p => r.IsKV kv ∧ p = some (r.rank kv)

/-- Modelled from the spec: `left_edge` of a slot, the edge before it in its node -/
def Handle.leftEdge (kv : Handle) : Handle := ⟨kv.path, kv.idx⟩

/-- Modelled from the spec: `right_edge` of a slot, the edge after it in its node -/
def Handle.rightEdge (kv : Handle) : Handle := ⟨kv.path, kv.idx + 1⟩

/-- the slot `move_next` walks to in `r` from the slot `o`: from the ghost `first_leaf_edge().right_kv()`, from a
slot `next_leaf_edge().next_kv()` -/
def nextSlot (r : Root K V) : Option Handle → Option Handle
  | none => rightKv r.node (firstLeafEdge r.height r.node)
  | some cur => nextKv r.node (nextLeafEdge r.height r.node cur)

/-- the slot `move_prev` walks to: from the ghost `last_leaf_edge().left_kv()`, from a slot
`next_back_leaf_edge().next_back_kv()` -/
def prevSlot (r : Root K V) : Option Handle → Option Handle
  | none => leftKv (lastLeafEdge r.height r.node)
  | some cur => nextBackKv (nextBackLeafEdge r.height r.node cur)

section Slots

variable {r : Root K V} {o : Option Handle} {p : Option ℕ}

theorem SlotAt.valid (hs : SlotAt r o p) : ∀ i ∈ p, i < r.inorder.length := by
  rcases o with _ | kv
  · cases hs; intro i hi; cases hi
  · obtain ⟨hkv, rfl⟩ := hs
    rintro i ⟨⟩
    exact r.rank_lt hkv

/-- the pair in a slot is the entry at its position -/
theorem SlotAt.kvAt (hs : SlotAt r o p) : o.bind (kvAt r.node) = p.bind (r.inorder[·]?) := by
  rcases o with _ | kv
  · cases hs; rfl
  · obtain ⟨hkv, rfl⟩ := hs
    exact r.kvAt_eq hkv

/-- `next_kv` from a leaf edge: the slot at the edge's rank, or the ghost past the end -/
theorem slotAt_nextKv {e : Handle} (he : r.IsLeafEdge e) :
    SlotAt r (nextKv r.node e) (if r.rank e < r.inorder.length then some (r.rank e) else none) := by
  have := nextKv_spec r.shaped he
  generalize nextKv r.node e = res at this ⊢
  cases res with
  | none => exact if_neg (by rw [show r.rank e = r.inorder.length from this]; exact lt_irrefl _)
  | some kv =>
    have hr : r.rank kv = r.rank e := this.2
    exact ⟨this.1, by rw [if_pos (hr ▸ r.rank_lt this.1), hr]⟩

/-- `next_back_kv` from a leaf edge: the slot before the edge's rank, or the ghost before the start -/
theorem slotAt_nextBackKv {e : Handle} (he : r.IsLeafEdge e) :
    SlotAt r (nextBackKv e) (if 0 < r.rank e then some (r.rank e - 1) else none) := by
  have := nextBackKv_spec r.shaped he
  generalize nextBackKv e = res at this ⊢
  cases res with
  | none => exact if_neg (by rw [show r.rank e = 0 from this]; exact lt_irrefl 0)
  | some kv =>
    have hr : r.rank kv + 1 = r.rank e := this.2
    exact ⟨this.1, by rw [if_pos (by omega), show r.rank e - 1 = r.rank kv by omega]⟩

/-- the edges either side of a slot in a leaf are leaf edges, at the slot's rank and the next -/
theorem Root.leftEdge_spec {kv : Handle} (hkv : r.IsKV kv) (hl : kv.path.length = r.height) :
    r.IsLeafEdge kv.leftEdge ∧ r.rank kv.leftEdge = r.rank kv :=
  ⟨⟨hkv.1, hl, hkv.2.le⟩, rfl⟩

theorem Root.rightEdge_spec {kv : Handle} (hkv : r.IsKV kv) (hl : kv.path.length = r.height) :
    r.IsLeafEdge kv.rightEdge ∧ r.rank kv.rightEdge = r.rank kv + 1 := by
  refine ⟨⟨hkv.1, hl, hkv.2⟩, ?_⟩
  show BtreeMonstrousity.rank r.height r.node kv.path (kv.idx + 1) =
    BtreeMonstrousity.rank r.height r.node kv.path kv.idx + 1
  rw [rank_leaf _ hkv.1 hl, rank_leaf _ hkv.1 hl, Nat.add_assoc]

/-- `move_next`'s slot: from the ghost the first, from a slot the next, or the ghost -/
theorem SlotAt.moveNext (hs : SlotAt r o p) : SlotAt r (nextSlot r o) (posNext r.inorder.length p) := by
  rcases o with _ | cur
  · cases hs
    have := firstKv_spec r.shaped r.belowFilled
    rw [nextSlot]
    generalize rightKv r.node (firstLeafEdge r.height r.node) = res at this ⊢
    cases res with
    | none => exact if_neg (by rw [show r.inorder = [] from this]; exact lt_irrefl 0)
    | some kv =>
      have hr : r.rank kv = 0 := this.2
      exact ⟨this.1, by rw [posNext, if_pos (hr ▸ r.rank_lt this.1), hr]⟩
  · obtain ⟨hkv, rfl⟩ := hs
    obtain ⟨he, hr⟩ := nextLeafEdge_spec r.shaped hkv
    have := slotAt_nextKv he
    rwa [show r.rank (nextLeafEdge r.height r.node cur) = r.rank cur + 1 from hr] at this

/-- `move_prev`'s slot: from the ghost the last, from a slot the previous, or the ghost -/
theorem SlotAt.movePrev (hs : SlotAt r o p) : SlotAt r (prevSlot r o) (posPrev r.inorder.length p) := by
  rcases o with _ | cur
  · cases hs
    have := lastKv_spec r.shaped r.belowFilled
    rw [prevSlot]
    generalize leftKv (lastLeafEdge r.height r.node) = res at this ⊢
    cases res with
    | none => exact if_neg (by rw [show r.inorder = [] from this]; exact lt_irrefl 0)
    | some kv =>
      have hr : r.rank kv + 1 = r.inorder.length := this.2
      exact ⟨this.1, by rw [posPrev, if_pos (by omega), show r.inorder.length - 1 = r.rank kv by omega]⟩
  · obtain ⟨hkv, rfl⟩ := hs
    obtain ⟨he, hr⟩ := nextBackLeafEdge_spec r.shaped hkv
    have := slotAt_nextBackKv he
    rwa [show r.rank (nextBackLeafEdge r.height r.node cur) = r.rank cur from hr] at this

/-- `next_kv` from the first leaf edge finds what `move_next` finds from the ghost -/
theorem slotAt_firstLeafEdge_nextKv :
    SlotAt r (nextKv r.node (firstLeafEdge r.height r.node)) (posNext r.inorder.length none) := by
  have := slotAt_nextKv (firstLeafEdge_spec r.shaped).1
  rwa [show r.rank (firstLeafEdge r.height r.node) = 0 from (firstLeafEdge_spec r.shaped).2] at this

end Slots

/-! ## The cursor -/

/-- `CursorMut`: the map it borrows (its `root` and `length`) and the current slot, `None` at the ghost. A slot is a
path in the map's tree, so every walk from it reads the root. -/
structure CursorMut (K V : Type) where
  map : BTreeMap K V
  current : Option Handle

namespace CursorMut

variable (c : CursorMut K V)

/-- `move_next` -/
def moveNext : CursorMut K V := { c with current := c.map.root.bind fun r => nextSlot r c.current }

/-- `move_prev` -/
def movePrev : CursorMut K V := { c with current := c.map.root.bind fun r => prevSlot r c.current }

/-- `key_value`: the pair in the current slot -/
def keyValue : Option (K × V) := c.map.root.bind fun r => c.current.bind (kvAt r.node)

/-- `key` -/
def key : Option K := c.keyValue.map Prod.fst

/-- `value` -/
def value : Option V := c.keyValue.map Prod.snd

/-- `peek_next` and `peek_prev`: the pair in the slot `walk` finds from the current one; from the ghost both take
`first_leaf_edge().next_kv()` -/
def peekWith (walk : Root K V → Handle → Option Handle) : Option (K × V) :=
  c.map.root.bind fun r =>
    (match c.current with
     | none => nextKv r.node (firstLeafEdge r.height r.node)
     | some cur => walk r cur).bind (kvAt r.node)

/-- `peek_next` -/
def peekNext : Option (K × V) := c.peekWith fun r cur => nextKv r.node (nextLeafEdge r.height r.node cur)

/-- `peek_prev` -/
def peekPrev : Option (K × V) := c.peekWith fun r cur => nextBackKv (nextBackLeafEdge r.height r.node cur)

/-- the position: the rank of the current slot, `None` at the ghost -/
def pos : Option ℕ := c.map.root.bind fun r => c.current.map r.rank

/-- the cursor as the position model sees it -/
def abs : ACursor K V := ⟨c.map.entries, c.pos⟩

/-- the map's length field counts its entries and the cursor is at a slot of its tree, or at the ghost -/
structure WF : Prop where
  length_eq : c.map.length = c.map.entries.length
  slot : ∀ cur ∈ c.current, ∃ r, c.map.root = some r ∧ r.IsKV cur

variable (L : NodeLayer K V)

/-- `edge.insert_recursing(key, value)` in `r` and `*self.length += 1`; `resume` finds the cursor's slot again from
the new pair's slot -/
def insertAt (r : Root K V) (edge : Handle) (key : K) (value : V)
    (resume : Node K V → Handle → Option Handle) : CursorMut K V :=
  ⟨⟨some (L.insertRecursing r edge key value).1, c.map.length + 1⟩,
    resume (L.insertRecursing r edge key value).1.node (L.insertRecursing r edge key value).2⟩

/-- `insert_after_unchecked`: a rootless map gets a leaf root holding the pair, the cursor staying at the ghost;
otherwise the pair goes in at the leaf edge after the current slot (the first leaf edge from the ghost), and the
cursor comes back to the slot before the new pair -/
def insertAfterUnchecked (key : K) (value : V) : CursorMut K V :=
  match c.map.root with
  | none => ⟨⟨some (Root.leaf [(key, value)]), c.map.length + 1⟩, none⟩
  | some r =>
    c.insertAt L r (match c.current with
      | none => firstLeafEdge r.height r.node
      | some cur => nextLeafEdge r.height r.node cur) key value fun _ h => nextBackKv h.leftEdge

/-- `insert_before_unchecked`: as `insert_after_unchecked`, at the leaf edge before the current slot (the last
leaf edge from the ghost), the cursor coming back to the slot after the new pair -/
def insertBeforeUnchecked (key : K) (value : V) : CursorMut K V :=
  match c.map.root with
  | none => ⟨⟨some (Root.leaf [(key, value)]), c.map.length + 1⟩, none⟩
  | some r =>
    c.insertAt L r (match c.current with
      | none => lastLeafEdge r.height r.node
      | some cur => nextBackLeafEdge r.height r.node cur) key value fun n h => nextKv n h.rightEdge

/-- `remove_kv_tracking` at the current slot (emptying an internal root pops a level inside it) and
`*self.length -= 1`, the cursor resuming from the returned edge by `resume`; `None` and no change at the ghost -/
def removeAt (resume : Node K V → Handle → Option Handle) : Option (K × V) × CursorMut K V :=
  match c.current, c.map.root with
  | some cur, some r =>
    ((L.removeKvTracking r cur).1,
      ⟨⟨some (L.removeKvTracking r cur).2.1, c.map.length - 1⟩,
        resume (L.removeKvTracking r cur).2.1.node (L.removeKvTracking r cur).2.2⟩)
  | _, _ => (none, c)

/-- `remove_current` -/
def removeCurrent : Option (K × V) × CursorMut K V := c.removeAt L nextKv

/-- `remove_current_and_move_back` -/
def removeCurrentAndMoveBack : Option (K × V) × CursorMut K V := c.removeAt L fun _ pos => nextBackKv pos

/-- a write through the reference that `value_mut`, `key_value_mut` or `key_mut_unchecked` returns, each
`current.kv_mut()`: the current pair becomes `g` of itself; at the ghost they return `None` and nothing is
written -/
def writeCurrent (g : K × V → K × V) : CursorMut K V :=
  match c.map.root, c.current with
  | some r, some cur => ⟨{ c.map with root := some (r.writeAt cur g) }, some cur⟩
  | _, _ => c

/-- `if let Some(v) = value_mut() { *v = f(v) }` -/
def valueMut (f : V → V) : CursorMut K V := c.writeCurrent fun kv => (kv.1, f kv.2)

/-- `if let Some((k, v)) = key_value_mut() { *v = f(k, v) }`: the key is lent shared, the value mutably -/
def keyValueMut (f : K → V → V) : CursorMut K V := c.writeCurrent fun kv => (kv.1, f kv.1 kv.2)

/-- `if let Some(k) = unsafe { key_mut_unchecked() } { *k = f(k) }` -/
def keyMutUnchecked (f : K → K) : CursorMut K V := c.writeCurrent fun kv => (f kv.1, kv.2)

/-- one operation: what it returns (the removed pair, else `None`) and the cursor after -/
def step : CursorOp K V → Option (K × V) × CursorMut K V
  | .moveNext => (none, c.moveNext)
  | .movePrev => (none, c.movePrev)
  | .removeCurrent => c.removeCurrent L
  | .removeCurrentAndMoveBack => c.removeCurrentAndMoveBack L
  | .insertAfterUnchecked k v => (none, c.insertAfterUnchecked L k v)
  | .insertBeforeUnchecked k v => (none, c.insertBeforeUnchecked L k v)

/-- a sequence of operations: what each returns, and the cursor at the end -/
def run (c : CursorMut K V) : List (CursorOp K V) → List (Option (K × V)) × CursorMut K V
  | [] => ([], c)
  | o :: os => ((c.step L o).1 :: ((c.step L o).2.run os).1, ((c.step L o).2.run os).2)

/-- one edit: an operation, or a write through the current slot -/
def edit : CursorEdit K V → Option (K × V) × CursorMut K V
  | .op o => c.step L o
  | .write g => (none, c.writeCurrent g)

/-- a sequence of edits: what each returns, and the cursor at the end -/
def editRun (c : CursorMut K V) : List (CursorEdit K V) → List (Option (K × V)) × CursorMut K V
  | [] => ([], c)
  | e :: es => ((c.edit L e).1 :: ((c.edit L e).2.editRun es).1, ((c.edit L e).2.editRun es).2)

theorem run_eq_editRun (c : CursorMut K V) : ∀ ops, c.run L ops = c.editRun L (ops.map .op)
  | [] => rfl
  | o :: os => by rw [run, List.map_cons, editRun, edit, run_eq_editRun _ os]

end CursorMut

/-! ## The read-only cursor -/

/-- `Cursor`: the current slot, `None` at the ghost, and the tree it borrows, `None` for a rootless map -/
structure Cursor (K V : Type) where
  current : Option Handle
  root : Option (Root K V)

namespace Cursor

variable (c : Cursor K V)

/-- `move_next` -/
def moveNext : Cursor K V := { c with current := c.root.bind fun r => nextSlot r c.current }

/-- `move_prev` -/
def movePrev : Cursor K V := { c with current := c.root.bind fun r => prevSlot r c.current }

/-- `key_value` -/
def keyValue : Option (K × V) := c.root.bind fun r => c.current.bind (kvAt r.node)

/-- `key` -/
def key : Option K := c.keyValue.map Prod.fst

/-- `peek_next`: a clone moved forward, read -/
def peekNext : Option (K × V) := c.moveNext.keyValue

/-- `peek_prev`: a clone moved back, read -/
def peekPrev : Option (K × V) := c.movePrev.keyValue

end Cursor

namespace CursorMut

variable (c : CursorMut K V)

/-- `as_cursor`: the same slot of the same tree, read only -/
def asCursor : Cursor K V := ⟨c.current, c.map.root⟩

/-! `Cursor`'s moves and `key_value` have `CursorMut`'s bodies, so `as_cursor` commutes with them. -/

@[simp] theorem asCursor_moveNext : c.asCursor.moveNext = c.moveNext.asCursor := rfl

@[simp] theorem asCursor_movePrev : c.asCursor.movePrev = c.movePrev.asCursor := rfl

@[simp] theorem asCursor_keyValue : c.asCursor.keyValue = c.keyValue := rfl

end CursorMut

/-! ## Cursors at a bound -/

namespace BTreeMap

variable (m : BTreeMap K V) (comp : Comparator K) (bound : SearchBound)

/-- `lower_bound`: the ghost of a rootless map; otherwise the slot after the leaf edge `NodeRef::lower_bound`
reaches from the root, the ghost past the last. `comp` is the comparator `NodeRef::lower_bound` searches the bound's
key with and `bound` the `SearchBound::from_range` of the bound. -/
def lowerBound : Cursor K V :=
  match m.root with
  | none => ⟨none, none⟩
  | some r => ⟨nextKv r.node (BtreeMonstrousity.lowerBound comp r.height r.node bound), some r⟩

/-- `upper_bound`: the slot before the leaf edge `NodeRef::upper_bound` reaches, the ghost before the first -/
def upperBound : Cursor K V :=
  match m.root with
  | none => ⟨none, none⟩
  | some r => ⟨nextBackKv (BtreeMonstrousity.upperBound comp r.height r.node bound), some r⟩

end BTreeMap

/-! ## One operation -/

namespace CursorMut

section Step

variable {L : NodeLayer K V} {r : Root K V} {n : ℕ} {o : Option Handle} {p : Option ℕ}

/-- a cursor on a rooted map whose length field counts the entries, at a slot: well formed, at the slot's
position -/
theorem wf_mk (hl : n = r.inorder.length) (hs : SlotAt r o p) :
    (⟨⟨some r, n⟩, o⟩ : CursorMut K V).WF ∧ (⟨⟨some r, n⟩, o⟩ : CursorMut K V).pos = p := by
  rcases o with _ | kv
  · cases hs
    exact ⟨⟨hl, fun _ h => by cases h⟩, rfl⟩
  · obtain ⟨hkv, rfl⟩ := hs
    exact ⟨⟨hl, fun _ h => by cases h; exact ⟨r, rfl, hkv⟩⟩, rfl⟩

theorem WF.slotAt (hc : (⟨⟨some r, n⟩, o⟩ : CursorMut K V).WF) :
    n = r.inorder.length ∧ SlotAt r o (⟨⟨some r, n⟩, o⟩ : CursorMut K V).pos := by
  refine ⟨hc.length_eq, ?_⟩
  rcases o with _ | kv
  · rfl
  · obtain ⟨_, h, hkv⟩ := hc.slot kv rfl
    cases h
    exact ⟨hkv, rfl⟩

/-- a rootless map has no entries, and its cursor is at the ghost -/
theorem WF.rootless (hc : (⟨⟨none, n⟩, o⟩ : CursorMut K V).WF) : o = none ∧ n = 0 := by
  rcases o with _ | kv
  · exact ⟨rfl, hc.length_eq⟩
  · obtain ⟨_, h, -⟩ := hc.slot kv rfl
    cases h

theorem WF.valid {c : CursorMut K V} (hc : c.WF) : c.abs.Valid := by
  rcases c with ⟨⟨_ | r, n⟩, o⟩
  · obtain ⟨rfl, -⟩ := hc.rootless
    intro i hi
    cases hi
  · exact hc.slotAt.2.valid

theorem moveNext_mk (hl : n = r.inorder.length) (hs : SlotAt r o p) :
    (⟨⟨some r, n⟩, o⟩ : CursorMut K V).moveNext.WF ∧
      (⟨⟨some r, n⟩, o⟩ : CursorMut K V).moveNext.abs = (ACursor.mk r.inorder p).moveNext :=
  let ⟨hw, hp⟩ := wf_mk hl hs.moveNext
  ⟨hw, congrArg (ACursor.mk _) hp⟩

theorem movePrev_mk (hl : n = r.inorder.length) (hs : SlotAt r o p) :
    (⟨⟨some r, n⟩, o⟩ : CursorMut K V).movePrev.WF ∧
      (⟨⟨some r, n⟩, o⟩ : CursorMut K V).movePrev.abs = (ACursor.mk r.inorder p).movePrev :=
  let ⟨hw, hp⟩ := wf_mk hl hs.movePrev
  ⟨hw, congrArg (ACursor.mk _) hp⟩

/-- an insertion at a leaf edge of rank `i`: the pair at position `i`, the length field one up, the cursor at the
position `resume` finds from the new slot -/
theorem insertAt_spec {c : CursorMut K V} {e : Handle} (hl : c.map.length = r.inorder.length) (he : r.IsLeafEdge e)
    (k : K) (v : V) {resume : Node K V → Handle → Option Handle} {q : Option ℕ}
    (hres : ∀ (r' : Root K V) (h : Handle), r'.IsKV h → h.path.length = r'.height → r'.rank h = r.rank e →
      r'.inorder.length = r.inorder.length + 1 → SlotAt r' (resume r'.node h) q) :
    (c.insertAt L r e k v resume).WF ∧
      (c.insertAt L r e k v resume).abs = ⟨r.inorder.take (r.rank e) ++ (k, v) :: r.inorder.drop (r.rank e), q⟩ := by
  obtain ⟨hkv, hleaf, hrank⟩ := L.insert_handle r e k v he
  have hin := L.insert_inorder r e k v he
  have hlen : (L.insertRecursing r e k v).1.inorder.length = r.inorder.length + 1 := by
    have := r.rank_le he
    rw [hin, List.length_append, List.length_take, List.length_cons, List.length_drop]
    omega
  obtain ⟨hw, hp⟩ := wf_mk (show c.map.length + 1 = _ by rw [hlen, hl]) (hres _ _ hkv hleaf hrank hlen)
  exact ⟨hw, congr (congrArg ACursor.mk hin) hp⟩

/-- `insert_after_unchecked`'s resumption: the slot before the new pair -/
theorem insertAt_after {c : CursorMut K V} {e : Handle} (hl : c.map.length = r.inorder.length) (he : r.IsLeafEdge e)
    (k : K) (v : V) :
    (c.insertAt L r e k v fun _ h => nextBackKv h.leftEdge).WF ∧
      (c.insertAt L r e k v fun _ h => nextBackKv h.leftEdge).abs =
        ⟨r.inorder.take (r.rank e) ++ (k, v) :: r.inorder.drop (r.rank e),
          if 0 < r.rank e then some (r.rank e - 1) else none⟩ :=
  insertAt_spec hl he k v fun r' _ hkv hleaf hrank _ => by
    obtain ⟨he', hr'⟩ := r'.leftEdge_spec hkv hleaf
    rw [← hrank, ← hr']
    exact slotAt_nextBackKv he'

/-- `insert_before_unchecked`'s resumption: the slot after the new pair -/
theorem insertAt_before {c : CursorMut K V} {e : Handle} (hl : c.map.length = r.inorder.length)
    (he : r.IsLeafEdge e) (k : K) (v : V) :
    (c.insertAt L r e k v fun n h => nextKv n h.rightEdge).WF ∧
      (c.insertAt L r e k v fun n h => nextKv n h.rightEdge).abs =
        ⟨r.inorder.take (r.rank e) ++ (k, v) :: r.inorder.drop (r.rank e),
          if r.rank e < r.inorder.length then some (r.rank e + 1) else none⟩ :=
  insertAt_spec hl he k v fun r' _ hkv hleaf hrank hlen => by
    obtain ⟨he', hr'⟩ := r'.rightEdge_spec hkv hleaf
    have := slotAt_nextKv he'
    rw [hr', hrank, hlen] at this
    simpa only [Nat.add_lt_add_iff_right] using this

theorem insertAfterUnchecked_mk (hl : n = r.inorder.length) (hs : SlotAt r o p) (k : K) (v : V) :
    ((⟨⟨some r, n⟩, o⟩ : CursorMut K V).insertAfterUnchecked L k v).WF ∧
      ((⟨⟨some r, n⟩, o⟩ : CursorMut K V).insertAfterUnchecked L k v).abs =
        (ACursor.mk r.inorder p).insertAfter k v := by
  rcases o with _ | cur
  · cases hs
    obtain ⟨he, hr⟩ := firstLeafEdge_spec r.shaped
    have := insertAt_after (L := L) (c := ⟨⟨some r, n⟩, none⟩) hl he k v
    rw [show r.rank (firstLeafEdge r.height r.node) = 0 from hr] at this
    simpa using this
  · obtain ⟨hkv, rfl⟩ := hs
    obtain ⟨he, hr⟩ := nextLeafEdge_spec r.shaped hkv
    have := insertAt_after (L := L) (c := ⟨⟨some r, n⟩, some cur⟩) hl he k v
    rw [show r.rank (nextLeafEdge r.height r.node cur) = r.rank cur + 1 from hr] at this
    simpa using this

theorem insertBeforeUnchecked_mk (hl : n = r.inorder.length) (hs : SlotAt r o p) (k : K) (v : V) :
    ((⟨⟨some r, n⟩, o⟩ : CursorMut K V).insertBeforeUnchecked L k v).WF ∧
      ((⟨⟨some r, n⟩, o⟩ : CursorMut K V).insertBeforeUnchecked L k v).abs =
        (ACursor.mk r.inorder p).insertBefore k v := by
  rcases o with _ | cur
  · cases hs
    obtain ⟨he, hr⟩ := lastLeafEdge_spec r.shaped
    have := insertAt_before (L := L) (c := ⟨⟨some r, n⟩, none⟩) hl he k v
    rw [show r.rank (lastLeafEdge r.height r.node) = r.inorder.length from hr] at this
    simpa using this
  · obtain ⟨hkv, rfl⟩ := hs
    obtain ⟨he, hr⟩ := nextBackLeafEdge_spec r.shaped hkv
    have := insertAt_before (L := L) (c := ⟨⟨some r, n⟩, some cur⟩) hl he k v
    rw [show r.rank (nextBackLeafEdge r.height r.node cur) = r.rank cur from hr, if_pos (r.rank_lt hkv)] at this
    exact this

/-- a removal at the slot of position `i`: the entry at `i` returned and taken out, the length field one down, the
cursor at the position `resume` finds from the returned edge -/
theorem removeAt_spec {cur : Handle} (hl : n = r.inorder.length) (hkv : r.IsKV cur)
    {resume : Node K V → Handle → Option Handle} {q : Option ℕ}
    (hres : ∀ (r' : Root K V) (pos : Handle), r'.IsLeafEdge pos → r'.rank pos = r.rank cur →
      r'.inorder.length + 1 = r.inorder.length → SlotAt r' (resume r'.node pos) q) :
    ((⟨⟨some r, n⟩, some cur⟩ : CursorMut K V).removeAt L resume).1 = r.inorder[r.rank cur]? ∧
      ((⟨⟨some r, n⟩, some cur⟩ : CursorMut K V).removeAt L resume).2.WF ∧
      ((⟨⟨some r, n⟩, some cur⟩ : CursorMut K V).removeAt L resume).2.abs =
        ⟨r.inorder.take (r.rank cur) ++ r.inorder.drop (r.rank cur + 1), q⟩ := by
  obtain ⟨hle, hrank⟩ := L.remove_handle r cur hkv
  have hout := L.remove_inorder r cur hkv
  have hlen : (L.removeKvTracking r cur).2.1.inorder.length + 1 = r.inorder.length := by
    have := r.rank_lt hkv
    rw [hout, List.length_append, List.length_take, List.length_drop]
    omega
  obtain ⟨hw, hp⟩ := wf_mk (show n - 1 = (L.removeKvTracking r cur).2.1.inorder.length by omega)
    (hres _ _ hle hrank hlen)
  exact ⟨(L.remove_pair r cur hkv).trans (r.kvAt_eq hkv), hw, congr (congrArg ACursor.mk hout) hp⟩

theorem removeCurrent_mk (hl : n = r.inorder.length) (hs : SlotAt r o p) :
    ((⟨⟨some r, n⟩, o⟩ : CursorMut K V).removeCurrent L).1 = (ACursor.mk r.inorder p).removeCurrent.1 ∧
      ((⟨⟨some r, n⟩, o⟩ : CursorMut K V).removeCurrent L).2.WF ∧
      ((⟨⟨some r, n⟩, o⟩ : CursorMut K V).removeCurrent L).2.abs = (ACursor.mk r.inorder p).removeCurrent.2 := by
  rcases o with _ | cur
  · cases hs
    exact ⟨rfl, (wf_mk (o := none) hl rfl).1, rfl⟩
  · obtain ⟨hkv, rfl⟩ := hs
    exact removeAt_spec hl hkv fun r' _ he hrank hlen => by
      have := slotAt_nextKv he
      rw [hrank] at this
      simpa only [show r.rank cur < r'.inorder.length ↔ r.rank cur + 1 < r.inorder.length by omega] using this

theorem removeCurrentAndMoveBack_mk (hl : n = r.inorder.length) (hs : SlotAt r o p) :
    ((⟨⟨some r, n⟩, o⟩ : CursorMut K V).removeCurrentAndMoveBack L).1 =
        (ACursor.mk r.inorder p).removeCurrentAndMoveBack.1 ∧
      ((⟨⟨some r, n⟩, o⟩ : CursorMut K V).removeCurrentAndMoveBack L).2.WF ∧
      ((⟨⟨some r, n⟩, o⟩ : CursorMut K V).removeCurrentAndMoveBack L).2.abs =
        (ACursor.mk r.inorder p).removeCurrentAndMoveBack.2 := by
  rcases o with _ | cur
  · cases hs
    exact ⟨rfl, (wf_mk (o := none) hl rfl).1, rfl⟩
  · obtain ⟨hkv, rfl⟩ := hs
    exact removeAt_spec hl hkv fun r' _ he hrank _ => hrank ▸ slotAt_nextBackKv he

variable {c : CursorMut K V}

theorem moveNext_spec (hc : c.WF) : c.moveNext.WF ∧ c.moveNext.abs = c.abs.moveNext := by
  rcases c with ⟨⟨_ | r, n⟩, o⟩
  · obtain ⟨rfl, rfl⟩ := hc.rootless
    exact ⟨hc, rfl⟩
  · exact moveNext_mk hc.slotAt.1 hc.slotAt.2

theorem movePrev_spec (hc : c.WF) : c.movePrev.WF ∧ c.movePrev.abs = c.abs.movePrev := by
  rcases c with ⟨⟨_ | r, n⟩, o⟩
  · obtain ⟨rfl, rfl⟩ := hc.rootless
    exact ⟨hc, rfl⟩
  · exact movePrev_mk hc.slotAt.1 hc.slotAt.2

/-- **One step.** From a well-formed cursor, each operation returns what the position model returns and leaves a
well-formed cursor where the model leaves its position. -/
theorem step_spec (hc : c.WF) (op : CursorOp K V) :
    (c.step L op).1 = (c.abs.step op).1 ∧ (c.step L op).2.WF ∧ (c.step L op).2.abs = (c.abs.step op).2 := by
  cases op with
  | moveNext => exact ⟨rfl, moveNext_spec hc⟩
  | movePrev => exact ⟨rfl, movePrev_spec hc⟩
  | removeCurrent =>
    rcases c with ⟨⟨_ | r, n⟩, o⟩
    · obtain ⟨rfl, rfl⟩ := hc.rootless
      exact ⟨rfl, hc, rfl⟩
    · exact removeCurrent_mk hc.slotAt.1 hc.slotAt.2
  | removeCurrentAndMoveBack =>
    rcases c with ⟨⟨_ | r, n⟩, o⟩
    · obtain ⟨rfl, rfl⟩ := hc.rootless
      exact ⟨rfl, hc, rfl⟩
    · exact removeCurrentAndMoveBack_mk hc.slotAt.1 hc.slotAt.2
  | insertAfterUnchecked k v =>
    rcases c with ⟨⟨_ | r, n⟩, o⟩
    · obtain ⟨rfl, rfl⟩ := hc.rootless
      exact ⟨rfl, ⟨rfl, fun _ h => by cases h⟩, rfl⟩
    · exact ⟨rfl, insertAfterUnchecked_mk hc.slotAt.1 hc.slotAt.2 k v⟩
  | insertBeforeUnchecked k v =>
    rcases c with ⟨⟨_ | r, n⟩, o⟩
    · obtain ⟨rfl, rfl⟩ := hc.rootless
      exact ⟨rfl, ⟨rfl, fun _ h => by cases h⟩, rfl⟩
    · exact ⟨rfl, insertBeforeUnchecked_mk hc.slotAt.1 hc.slotAt.2 k v⟩

/-- a write through the current slot leaves a well-formed cursor at the same position, the entry there written -/
theorem writeCurrent_spec (hc : c.WF) (g : K × V → K × V) :
    (c.writeCurrent g).WF ∧ (c.writeCurrent g).abs = c.abs.modifyCurrent g := by
  rcases c with ⟨⟨_ | r, n⟩, _ | cur⟩
  · exact ⟨hc, rfl⟩
  · exact absurd hc.rootless.1 (Option.some_ne_none _)
  · exact ⟨hc, rfl⟩
  · obtain ⟨hl, hkv, -⟩ := hc.slotAt
    have hi : (r.writeAt cur g).inorder = r.inorder.modify g (r.rank cur) := r.inorder_writeAt hkv g
    obtain ⟨hw, hp⟩ := wf_mk (show n = (r.writeAt cur g).inorder.length by rw [hi, List.length_modify, hl])
      (show SlotAt (r.writeAt cur g) (some cur) (some (r.rank cur)) from ⟨r.isKV_writeAt hkv g, by simp⟩)
    refine ⟨hw, ?_⟩
    show ACursor.mk (r.writeAt cur g).inorder (⟨⟨some (r.writeAt cur g), n⟩, some cur⟩ : CursorMut K V).pos = _
    rw [hp, hi]
    rfl

/-- **One edit.** An operation as `step_spec` says; a write as `writeCurrent_spec` says. -/
theorem edit_spec (hc : c.WF) (e : CursorEdit K V) :
    (c.edit L e).1 = (c.abs.edit e).1 ∧ (c.edit L e).2.WF ∧ (c.edit L e).2.abs = (c.abs.edit e).2 := by
  cases e with
  | op o => exact step_spec hc o
  | write g => exact ⟨rfl, writeCurrent_spec hc g⟩

end Step

/-! ## Runs -/

section Run

variable {L : NodeLayer K V}

theorem editRun_spec : ∀ (es : List (CursorEdit K V)) {c : CursorMut K V}, c.WF →
    (c.editRun L es).1 = (c.abs.editRun es).1 ∧ (c.editRun L es).2.WF ∧
      (c.editRun L es).2.abs = (c.abs.editRun es).2
  | [], _, hc => ⟨rfl, hc, rfl⟩
  | e :: es, c, hc => by
    obtain ⟨h1, hw, h2⟩ := edit_spec (L := L) hc e
    obtain ⟨ih1, ihw, ih2⟩ := editRun_spec es hw
    refine ⟨?_, ihw, ?_⟩
    · simp only [CursorMut.editRun, ACursor.editRun, h1, ih1, h2]
    · simp only [CursorMut.editRun, ACursor.editRun, ih2, h2]

theorem run_spec (ops : List (CursorOp K V)) {c : CursorMut K V} (hc : c.WF) :
    (c.run L ops).1 = (c.abs.run ops).1 ∧ (c.run L ops).2.WF ∧ (c.run L ops).2.abs = (c.abs.run ops).2 := by
  rw [run_eq_editRun, ACursor.run_eq_editRun]
  exact editRun_spec _ hc

variable {c : CursorMut K V}

/-- `key_value` returns the entry at the cursor's position -/
theorem keyValue_eq (hc : c.WF) : c.keyValue = c.abs.keyValue := by
  rcases c with ⟨⟨_ | r, n⟩, o⟩
  · obtain ⟨rfl, -⟩ := hc.rootless
    rfl
  · exact hc.slotAt.2.kvAt

/-- `peek_next` returns the entry a move forward reaches -/
theorem peekNext_eq (hc : c.WF) : c.peekNext = c.abs.moveNext.keyValue := by
  rcases c with ⟨⟨_ | r, n⟩, o⟩
  · obtain ⟨rfl, -⟩ := hc.rootless
    rfl
  · rcases o with _ | cur
    · exact slotAt_firstLeafEdge_nextKv.kvAt
    · exact hc.slotAt.2.moveNext.kvAt

/-- `peek_prev` returns the entry a move back reaches, except at the ghost, where it returns the one a move forward
reaches -/
theorem peekPrev_eq (hc : c.WF) :
    c.peekPrev = match c.pos with
      | none => c.abs.moveNext.keyValue
      | some _ => c.abs.movePrev.keyValue := by
  rcases c with ⟨⟨_ | r, n⟩, o⟩
  · obtain ⟨rfl, -⟩ := hc.rootless
    rfl
  · rcases o with _ | cur
    · exact slotAt_firstLeafEdge_nextKv.kvAt
    · exact hc.slotAt.2.movePrev.kvAt

theorem iterate_moveNext (hc : c.WF) : ∀ k : ℕ,
    (moveNext^[k] c).WF ∧ (moveNext^[k] c).abs = ⟨c.abs.entries, (posNext c.abs.entries.length)^[k] c.abs.pos⟩
  | 0 => ⟨hc, rfl⟩
  | k + 1 => by
    obtain ⟨hw, ha⟩ := iterate_moveNext hc k
    rw [Function.iterate_succ_apply', Function.iterate_succ_apply']
    exact ⟨(moveNext_spec hw).1, (moveNext_spec hw).2.trans (by rw [ha]; rfl)⟩

theorem iterate_movePrev (hc : c.WF) : ∀ k : ℕ,
    (movePrev^[k] c).WF ∧ (movePrev^[k] c).abs = ⟨c.abs.entries, (posPrev c.abs.entries.length)^[k] c.abs.pos⟩
  | 0 => ⟨hc, rfl⟩
  | k + 1 => by
    obtain ⟨hw, ha⟩ := iterate_movePrev hc k
    rw [Function.iterate_succ_apply', Function.iterate_succ_apply']
    exact ⟨(movePrev_spec hw).1, (movePrev_spec hw).2.trans (by rw [ha]; rfl)⟩

/-- a cursor at position `i` (the ghost for `none`) of a map held in one leaf -/
def leafCursor (l : List (K × V)) (i : Option ℕ) : CursorMut K V :=
  ⟨⟨some (Root.leaf l), l.length⟩, i.map fun i => ⟨[], i⟩⟩

theorem leafCursor_wf {l : List (K × V)} {i : Option ℕ} (hi : ∀ j ∈ i, j < l.length) : (leafCursor l i).WF := by
  refine ⟨rfl, fun cur h => ?_⟩
  rcases i with _ | j
  · cases h
  · cases h
    exact ⟨_, rfl, trivial, hi j rfl⟩

/-- **The cursor refines the position model.** From every cursor of a map whose length field counts its entries,
at a slot of its tree or at the ghost, every sequence of `move_next`, `move_prev`, `remove_current`,
`remove_current_and_move_back`, `insert_after_unchecked` and `insert_before_unchecked` returns what the position
model returns and ends at its position, where `key_value` returns the entry at that position; from there a move
forward then back, or back then forward, comes back to the same position, and so do `n + 1` moves either way. -/
theorem cursor_refines_positions (L : NodeLayer K V) (c : CursorMut K V) (hc : c.WF) (ops : List (CursorOp K V)) :
    (c.run L ops).1 = (c.abs.run ops).1 ∧ (c.run L ops).2.abs = (c.abs.run ops).2 ∧
      (c.run L ops).2.keyValue = (c.abs.run ops).2.keyValue ∧
      (c.run L ops).2.moveNext.movePrev.abs = (c.run L ops).2.abs ∧
      (c.run L ops).2.movePrev.moveNext.abs = (c.run L ops).2.abs ∧
      (moveNext^[(c.run L ops).2.map.length + 1] (c.run L ops).2).abs = (c.run L ops).2.abs ∧
      (movePrev^[(c.run L ops).2.map.length + 1] (c.run L ops).2).abs = (c.run L ops).2.abs := by
  obtain ⟨h1, hw, h2⟩ := run_spec ops hc
  have hv : (c.run L ops).2.abs.Valid := hw.valid
  obtain ⟨hw1, ha1⟩ := moveNext_spec hw
  obtain ⟨hw2, ha2⟩ := movePrev_spec hw
  refine ⟨h1, h2, by rw [keyValue_eq hw, h2], ?_, ?_, ?_, ?_⟩
  · rw [(movePrev_spec hw1).2, ha1]
    exact congrArg (ACursor.mk _) (posPrev_posNext hv)
  · rw [(moveNext_spec hw2).2, ha2]
    exact congrArg (ACursor.mk _) (posNext_posPrev hv)
  · rw [(iterate_moveNext hw _).2, hw.length_eq]
    exact congrArg (ACursor.mk _) (iterate_posNext hv)
  · rw [(iterate_movePrev hw _).2, hw.length_eq]
    exact congrArg (ACursor.mk _) (iterate_posPrev hv)

/-- from the first of two entries, `move_next` then `remove_current_and_move_back` return nothing and then the
second entry, and leave the cursor back on the first -/
theorem cursor_refines_positions_leaf :
    (leafCursor [(1, 10), (2, 20)] (some 0)).WF ∧
      ((leafCursor [(1, 10), (2, 20)] (some 0)).run flatLayer [.moveNext, .removeCurrentAndMoveBack]).1 =
        [none, some (2, 20)] ∧
      ((leafCursor [(1, 10), (2, 20)] (some 0)).run flatLayer [.moveNext, .removeCurrentAndMoveBack]).2.abs =
        ⟨[(1, 10)], some 0⟩ :=
  have hw : (leafCursor [(1, 10), (2, 20)] (some 0)).WF := leafCursor_wf (by decide)
  ⟨hw, (cursor_refines_positions flatLayer _ hw _).1.trans rfl,
    (cursor_refines_positions flatLayer _ hw _).2.1.trans rfl⟩

/-- **Edits and writes refine the position model.** From every well-formed cursor, every sequence that mixes the
operations of `cursor_refines_positions` with writes through `value_mut`, `key_value_mut` or `key_mut_unchecked`
returns what the position model returns and ends well formed where the model ends, its map holding the model's
entries: a write made after any removals and insertions lands on the entry at the model's position, and
`key_value` reads it back. -/
theorem cursor_edits_refine_positions (L : NodeLayer K V) (c : CursorMut K V) (hc : c.WF)
    (es : List (CursorEdit K V)) :
    (c.editRun L es).1 = (c.abs.editRun es).1 ∧ (c.editRun L es).2.WF ∧
      (c.editRun L es).2.abs = (c.abs.editRun es).2 ∧
      (c.editRun L es).2.keyValue = (c.abs.editRun es).2.keyValue := by
  obtain ⟨h1, hw, h2⟩ := editRun_spec (L := L) es hc
  exact ⟨h1, hw, h2, (keyValue_eq hw).trans (congrArg ACursor.keyValue h2)⟩

/-- at key `1` of the keys `1, 2, 3`: `remove_current`, then a write of `99` through `value_mut`, which lands on
the entry of key `2` -/
theorem cursor_edits_refine_positions_leaf :
    (leafCursor [(1, 10), (2, 20), (3, 30)] (some 0)).WF ∧
      ((leafCursor [(1, 10), (2, 20), (3, 30)] (some 0)).editRun flatLayer
        [.op .removeCurrent, .write fun kv => (kv.1, 99)]).2.keyValue = some (2, 99) :=
  have hw : (leafCursor [(1, 10), (2, 20), (3, 30)] (some 0)).WF := leafCursor_wf (by decide)
  ⟨hw, (cursor_edits_refine_positions flatLayer _ hw _).2.2.2.trans rfl⟩

end Run

/-! ## The peeks against the read-only cursor's -/

section Peeks

/-- **The peeks.** From a well-formed cursor over the entries `e_0, ..., e_{n-1}`, the read-only cursor's
`peek_next` (a clone moved forward) returns `e_0` from the ghost, `e_{i+1}` from position `i` and nothing from the
last entry, and its `peek_prev` (a clone moved back) `e_{n-1}` from the ghost, `e_{i-1}` from position `i` and
nothing from the first. `CursorMut::peek_next` returns what `Cursor::peek_next` returns at every position, and
`CursorMut::peek_prev` what `Cursor::peek_prev` returns at every entry; at the ghost it walks forward from the
first leaf edge and returns what `peek_next` returns. -/
theorem cursor_peeks_clone_and_move (c : CursorMut K V) (hc : c.WF) :
    c.asCursor.peekNext = (match c.pos with
      | none => c.map.entries[0]?
      | some i => c.map.entries[i + 1]?) ∧
    c.asCursor.peekPrev = (match c.pos with
      | none => c.map.entries.getLast?
      | some i => if i = 0 then none else c.map.entries[i - 1]?) ∧
    c.peekNext = c.asCursor.peekNext ∧
    c.peekPrev = (match c.pos with
      | none => c.asCursor.peekNext
      | some _ => c.asCursor.peekPrev) := by
  have hN : c.asCursor.peekNext = c.abs.moveNext.keyValue := by
    rw [Cursor.peekNext, asCursor_moveNext, asCursor_keyValue, keyValue_eq (moveNext_spec hc).1,
      (moveNext_spec hc).2]
  have hP : c.asCursor.peekPrev = c.abs.movePrev.keyValue := by
    rw [Cursor.peekPrev, asCursor_movePrev, asCursor_keyValue, keyValue_eq (movePrev_spec hc).1,
      (movePrev_spec hc).2]
  refine ⟨hN.trans c.abs.moveNext_keyValue, hP.trans c.abs.movePrev_keyValue, (peekNext_eq hc).trans hN.symm, ?_⟩
  rw [peekPrev_eq hc, hN, hP]

/-- from key `1` of the keys `1, 2`, `peek_next` returns the entry of key `2` and `peek_prev` nothing -/
theorem cursor_peeks_first_entry :
    (leafCursor [(1, 10), (2, 20)] (some 0)).WF ∧
      (leafCursor [(1, 10), (2, 20)] (some 0)).peekNext = some (2, 20) ∧
      (leafCursor [(1, 10), (2, 20)] (some 0)).peekPrev = none :=
  have hw : (leafCursor [(1, 10), (2, 20)] (some 0)).WF := leafCursor_wf (by decide)
  have hp := cursor_peeks_clone_and_move _ hw
  ⟨hw, hp.2.2.1.trans (hp.1.trans rfl), hp.2.2.2.trans (hp.2.1.trans rfl)⟩

/-- On the strictly ascending keys `1, 2`, from the ghost, `CursorMut::peek_prev` returns the first entry where
`Cursor::peek_prev` (and `move_prev`) gives the last. -/
theorem cursor_peek_prev_ghost :
    Ascending id ([(1, 10), (2, 20)].map Prod.fst) ∧ (leafCursor [(1, 10), (2, 20)] none).WF ∧
      (leafCursor [(1, 10), (2, 20)] none).peekPrev = some (1, 10) ∧
      (leafCursor [(1, 10), (2, 20)] none).asCursor.peekPrev = some (2, 20) ∧
      (leafCursor [(1, 10), (2, 20)] none).movePrev.keyValue = some (2, 20) :=
  ⟨by decide, leafCursor_wf (by decide), rfl, rfl, rfl⟩

end Peeks

/-! ## Writes through the current slot -/

section Writes

variable {c : CursorMut K V}

/-- the current entry, when there is one: the position of a well-formed cursor, and the entry there -/
theorem keyValue_some (hc : c.WF) {x : K × V} (hx : c.keyValue = some x) :
    ∃ i, c.pos = some i ∧ c.map.entries[i]? = some x := by
  rw [keyValue_eq hc] at hx
  exact Option.bind_eq_some.1 hx

/-- a well-formed cursor with no current entry is at the ghost -/
theorem pos_of_keyValue_none (hc : c.WF) (hx : c.keyValue = none) : c.pos = none := by
  rw [keyValue_eq hc] at hx
  cases hp : c.pos with
  | none => rfl
  | some i =>
    simp only [ACursor.keyValue, abs, hp, Option.some_bind, List.getElem?_eq_none_iff] at hx
    exact absurd (hc.valid i hp) (not_lt.2 hx)

variable {κ : Type} [LinearOrder κ] {key : K → κ}

/-- **Writes through `value_mut` and `key_value_mut`.** From every well-formed cursor over a map whose length field
counts its entries and whose keys strictly ascend, writing `f(k, v)` into the current entry's value (`value_mut`
is the case of an `f` that ignores the key) leaves a well-formed cursor at the same position, whose map holds the
entries of the position model's write; the map keeps its invariant, and its key at the cursor is bound to the
written value with every other binding unchanged. At the ghost nothing is written. -/
theorem keyValueMut_spec (hc : c.WF) (hI : Inv key c.map) (f : K → V → V) :
    (c.keyValueMut f).WF ∧ (c.keyValueMut f).abs = c.abs.modifyCurrent (fun kv => (kv.1, f kv.1 kv.2)) ∧
      Inv key (c.keyValueMut f).map ∧
      ∀ t, find key t (c.keyValueMut f).map.entries =
        match c.keyValue with
        | some (k, v) => if t = key k then some (k, f k v) else find key t c.map.entries
        | none => find key t c.map.entries := by
  obtain ⟨hw, ha⟩ := writeCurrent_spec hc fun kv => (kv.1, f kv.1 kv.2)
  have he : (c.keyValueMut f).map.entries = (c.abs.modifyCurrent fun kv => (kv.1, f kv.1 kv.2)).entries :=
    congrArg ACursor.entries ha
  cases hx : c.keyValue with
  | none =>
    have he' : (c.keyValueMut f).map.entries = c.map.entries := by
      rw [he]; simp only [abs, ACursor.modifyCurrent, pos_of_keyValue_none hc hx]
    exact ⟨hw, ha, ⟨hw.length_eq, he' ▸ hI.ascending⟩, fun t => by rw [he']⟩
  | some x =>
    obtain ⟨k, v⟩ := x
    obtain ⟨i, hp, hi⟩ := keyValue_some hc hx
    have he' : (c.keyValueMut f).map.entries = c.map.entries.modify (fun kv => (kv.1, f k v)) i := by
      rw [he]; simp only [abs, ACursor.modifyCurrent, hp]; exact modify_congr_at hi rfl
    exact ⟨hw, ha, ⟨hw.length_eq, he' ▸ hI.ascending.modify _ _⟩, fun t => by rw [he', hI.ascending.find_modify hi]⟩
  
/-- at key `2` of the keys `1, 2`, `key_value_mut` writing `k + v` binds `2` to `22` -/
theorem keyValueMut_spec_last :
    (leafCursor [(1, 10), (2, 20)] (some 1)).WF ∧ Inv id (leafCursor [(1, 10), (2, 20)] (some 1)).map ∧
      find id 2 ((leafCursor [(1, 10), (2, 20)] (some 1)).keyValueMut fun k v => k + v).map.entries = some (2, 22) :=
  have hw : (leafCursor [(1, 10), (2, 20)] (some 1)).WF := leafCursor_wf (by decide)
  have hI : Inv id (leafCursor [(1, 10), (2, 20)] (some 1)).map := ⟨rfl, by decide⟩
  ⟨hw, hI, ((keyValueMut_spec hw hI _).2.2.2 2).trans rfl⟩

/-- **`key_mut_unchecked`'s safety contract.** From every well-formed cursor at an entry of key `k`, over a map
whose length field counts its entries and whose keys strictly ascend under `key`, writing `f(k)` through the key
reference keeps the map's invariant exactly when `key (f k)` lies strictly above the key of the entry `peek_prev`
returns and strictly below that of the entry `peek_next` returns (each when there is one): the contract "unique
within the tree, and in sorted order with regards to other elements" need only be checked against the two
neighbours. -/
theorem keyMutUnchecked_ordered_iff (hc : c.WF) (hI : Inv key c.map) {k : K} (hk : c.key = some k) (f : K → K) :
    Inv key (c.keyMutUnchecked f).map ↔
      (∀ p ∈ c.peekPrev, key p.1 < key (f k)) ∧ ∀ p ∈ c.peekNext, key (f k) < key p.1 := by
  obtain ⟨hw, ha⟩ := writeCurrent_spec hc fun kv => (f kv.1, kv.2)
  obtain ⟨⟨k, v⟩, hx, rfl⟩ := Option.map_eq_some'.1 hk
  obtain ⟨i, hp, hi⟩ := keyValue_some hc hx
  have hr : i < c.map.entries.length := (List.getElem?_eq_some_iff.1 hi).1
  have he : (c.keyMutUnchecked f).map.entries = c.map.entries.modify (fun kv => (f k, kv.2)) i := by
    rw [show (c.keyMutUnchecked f).map.entries = _ from congrArg ACursor.entries ha]
    simp only [abs, ACursor.modifyCurrent, hp]
    exact modify_congr_at hi rfl
  have hP : c.peekPrev = (c.map.entries.take i).getLast? := by
    rw [peekPrev_eq hc, ACursor.movePrev_keyValue, List.getLast?_take]
    simp only [abs, hp]
    split_ifs with h0
    · rfl
    · rw [List.getElem?_eq_getElem (by omega : i - 1 < c.map.entries.length)]; rfl
  have hN : c.peekNext = (c.map.entries.drop (i + 1)).head? := by
    rw [peekNext_eq hc, ACursor.moveNext_keyValue, List.head?_drop]
    simp only [abs, hp]
  rw [hP, hN, ← hI.ascending.modify_key_iff_neighbours hr, ← he]
  exact ⟨Inv.ascending, fun h => ⟨hw.length_eq, h⟩⟩

/-- at key `2` of the keys `1, 2, 4`, writing the key `4` breaks the order: `peek_next` returns the entry of key
`4` -/
theorem keyMutUnchecked_ordered_iff_clash :
    (leafCursor [(1, 10), (2, 20), (4, 40)] (some 1)).WF ∧ Inv id (leafCursor [(1, 10), (2, 20), (4, 40)] (some 1)).map ∧
      (leafCursor [(1, 10), (2, 20), (4, 40)] (some 1)).key = some 2 ∧
      ¬ Inv id ((leafCursor [(1, 10), (2, 20), (4, 40)] (some 1)).keyMutUnchecked fun _ => 4).map :=
  have hw : (leafCursor [(1, 10), (2, 20), (4, 40)] (some 1)).WF := leafCursor_wf (by decide)
  have hI : Inv id (leafCursor [(1, 10), (2, 20), (4, 40)] (some 1)).map := ⟨rfl, by decide⟩
  ⟨hw, hI, rfl, fun h => absurd ((keyMutUnchecked_ordered_iff hw hI rfl _).1 h).2 (by decide)⟩

end Writes

/-! ## Cursors at a bound -/

section Bounds

variable {κ : Type} [LinearOrder κ] {key : K → κ} {m : BTreeMap K V} {comp : Comparator K} {b : SearchBound}

end Bounds

/-! ## The checked insertions -/

section Checked

variable [LinearOrder K] (c : CursorMut K V) (L : NodeLayer K V)

/-- `insert_after`: panics unless the key is above the current element and below the pair `peek_prev` returns -/
def insertAfter (key : K) (value : V) : Except String (CursorMut K V) :=
  if c.key.any (key ≤ ·) then .error "key must be ordered above the current element"
  else if c.peekPrev.any (key ≥ ·.1) then .error "key must be ordered below the next element"
  else .ok (c.insertAfterUnchecked L key value)

/-- `insert_before`: panics unless the key is below the current element and above the pair `peek_prev` returns -/
def insertBefore (key : K) (value : V) : Except String (CursorMut K V) :=
  if c.key.any (key ≥ ·) then .error "key must be ordered below the current element"
  else if c.peekPrev.any (key ≤ ·.1) then .error "key must be ordered above the previous element"
  else .ok (c.insertBeforeUnchecked L key value)

variable {c L}

theorem isOk_guarded {α : Type} {A B : Bool} {m₁ m₂ : String} {x : α} :
    (if A then Except.error m₁ else if B then Except.error m₂ else Except.ok x : Except String α).isOk =
      (!A && !B) := by
  cases A <;> cases B <;> rfl

theorem eq_of_guarded {α : Type} {A B : Bool} {m₁ m₂ : String} {x y : α}
    (h : (if A then Except.error m₁ else if B then Except.error m₂ else Except.ok x : Except String α) = .ok y) :
    x = y := by
  cases A <;> cases B <;> first | exact Except.ok.inj h | cases h

/-- Of two entries of ascending keys, the first is the smaller -/
theorem Ascending.fst_lt_succ {l : List (K × V)} (hA : Ascending id (l.map Prod.fst)) {j : ℕ}
    (hj : j + 1 < l.length) : l[j].1 < l[j + 1].1 := by
  have := List.pairwise_iff_getElem.1 hA j (j + 1) (by simp; omega) (by simpa using hj) (Nat.lt_succ_self j)
  rwa [List.getElem_map, List.getElem_map] at this

/-- **What the checked insertions accept.** On a well-formed cursor over entries of strictly ascending keys,
`insert_after(k, v)` returns without panicking exactly when the cursor is at the ghost and `k` is below the first
key (if any), or the cursor is at the first entry and `k` is above its key: from any later entry it panics for
every key, and from the first it never compares `k` with the next key. `insert_before(k, v)` returns exactly when
`k` is below the current key and above the previous one (if any), or the cursor is at the ghost and `k` is above
the first key (if any). When they return, the pair stands right after / right before the current entry (first /
last from the ghost), the cursor staying where it was. -/
theorem cursor_insert_checks (L : NodeLayer K V) (c : CursorMut K V) (hc : c.WF) (hA : Ascending id (c.map.entries.map Prod.fst))
    (k : K) (v : V) :
    ((c.insertAfter L k v).isOk ↔
      match c.pos with
      | none => ∀ e ∈ c.map.entries.head?, k < e.1
      | some i => i = 0 ∧ ∀ e ∈ c.map.entries[i]?, e.1 < k) ∧
    ((c.insertBefore L k v).isOk ↔
      match c.pos with
      | none => ∀ e ∈ c.map.entries.head?, e.1 < k
      | some i => (∀ e ∈ c.map.entries[i]?, k < e.1) ∧ (0 < i → ∀ e ∈ c.map.entries[i - 1]?, e.1 < k)) ∧
    (∀ c', c.insertAfter L k v = .ok c' → c'.WF ∧ c'.abs = c.abs.insertAfter k v) ∧
    (∀ c', c.insertBefore L k v = .ok c' → c'.WF ∧ c'.abs = c.abs.insertBefore k v) := by
  have hv : ∀ i ∈ c.pos, i < c.map.entries.length := hc.valid
  refine ⟨?_, ?_, fun c' h => (eq_of_guarded h) ▸ (step_spec hc (.insertAfterUnchecked k v)).2,
    fun c' h => (eq_of_guarded h) ▸ (step_spec hc (.insertBeforeUnchecked k v)).2⟩
  · rw [insertAfter, isOk_guarded, key, keyValue_eq hc, peekPrev_eq hc]
    simp only [ACursor.keyValue, ACursor.moveNext, ACursor.movePrev, abs]
    generalize c.pos = P at hv ⊢
    generalize c.map.entries = l at hA hv ⊢
    rcases P with _ | (_ | j)
    · cases l <;> simp [posNext]
    · simp [posPrev, List.getElem?_eq_getElem (hv 0 rfl)]
    · have hj := hv (j + 1) rfl
      simp [posPrev, List.getElem?_eq_getElem hj, List.getElem?_eq_getElem (Nat.lt_of_succ_lt hj)]
      exact fun h => ((Ascending.fst_lt_succ hA hj).trans h).le
  · rw [insertBefore, isOk_guarded, key, keyValue_eq hc, peekPrev_eq hc]
    simp only [ACursor.keyValue, ACursor.moveNext, ACursor.movePrev, abs]
    generalize c.pos = P at hv ⊢
    generalize c.map.entries = l at hA hv ⊢
    rcases P with _ | (_ | j)
    · cases l <;> simp [posNext]
    · simp [posPrev, List.getElem?_eq_getElem (hv 0 rfl)]
    · have hj := hv (j + 1) rfl
      simp [posPrev, List.getElem?_eq_getElem hj, List.getElem?_eq_getElem (Nat.lt_of_succ_lt hj)]

/-- on keys `1, 3`, from key `1`, `insert_after(5)` returns -/
theorem cursor_insert_checks_leaf :
    (leafCursor [(1, 10), (3, 30)] (some 0)).WF ∧
      Ascending id ((leafCursor [(1, 10), (3, 30)] (some 0)).map.entries.map Prod.fst) ∧
      ((leafCursor [(1, 10), (3, 30)] (some 0)).insertAfter flatLayer 5 50).isOk = true :=
  have hw : (leafCursor [(1, 10), (3, 30)] (some 0)).WF := leafCursor_wf (by decide)
  have hA : Ascending id ((leafCursor [(1, 10), (3, 30)] (some 0)).map.entries.map Prod.fst) := by decide
  ⟨hw, hA, (cursor_insert_checks flatLayer _ hw hA 5 50).1.2
    (show 0 = 0 ∧ ∀ e ∈ [(1, 10), (3, 30)][0]?, e.1 < 5 from ⟨rfl, by simp⟩)⟩

/-- On keys `1, 3` (strictly ascending), from key `1`, `insert_after(5)` returns and leaves the keys `1, 5, 3`; on
keys `1, 2, 5`, from key `2`, `insert_after(3)` panics although `2 < 3 < 5`; on keys `1, 3`, from the ghost,
`insert_before(2)` returns and leaves the keys `1, 3, 2`. -/
theorem cursor_insert_wrong_neighbour :
    Ascending id ([(1, 10), (3, 30)].map Prod.fst) ∧ Ascending id ([(1, 10), (2, 20), (5, 50)].map Prod.fst) ∧
      (leafCursor [(1, 10), (3, 30)] (some 0)).WF ∧ (leafCursor [(1, 10), (2, 20), (5, 50)] (some 1)).WF ∧
      (leafCursor [(1, 10), (3, 30)] none).WF ∧
      ((leafCursor [(1, 10), (3, 30)] (some 0)).insertAfter flatLayer 5 50).toOption.map (·.map.entries) =
        some [(1, 10), (5, 50), (3, 30)] ∧
      (leafCursor [(1, 10), (2, 20), (5, 50)] (some 1)).insertAfter flatLayer 3 30 =
        .error "key must be ordered below the next element" ∧
      ((leafCursor [(1, 10), (3, 30)] none).insertBefore flatLayer 2 20).toOption.map (·.map.entries) =
        some [(1, 10), (3, 30), (2, 20)] :=
  ⟨by decide, by decide, leafCursor_wf (by decide), leafCursor_wf (by decide), leafCursor_wf (by decide), rfl, rfl,
    rfl⟩

end Checked

end CursorMut

end BtreeMonstrousity
