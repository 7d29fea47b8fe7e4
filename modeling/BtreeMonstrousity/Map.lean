import BtreeMonstrousity.Layer
import BtreeMonstrousity.FiniteMap

/-!
`BTreeMap` (`map.rs`) over the node layer: the point operations, the entry API and the first / last operations,
each as the source composes `search_tree`, the navigation of `navigate.rs` and the node layer's mutations.

- `BTreeMap`: the root (when any) and the length field; `entries` is what a full traversal yields.
- `get`, `get_key_value`, `get_mut`, `contains_key`, `entry`, `insert`, `remove_entry`, `remove`,
  `first_key_value`, `last_key_value`, `first_entry`, `last_entry`, `pop_first`, `pop_last`, `clear`, and,
  Modelled from the spec (`entry.rs` is absent), `VacantEntry::insert`, `OccupiedEntry::insert` and
  `OccupiedEntry::remove_entry`.
- `step` / `run`: the operations of `MapOp`, each lookup compared as `|k| compare(t, key(k))`.
- `Inv`: the length field counts the entries, and their keys strictly ascend.

Results: `step_spec`, every operation from a state satisfying `Inv` does what `FMapStep` says a finite map does
and keeps `Inv`; `run_inv`, every state reached from `BTreeMap::new` satisfies `Inv`. `getMutWrite_spec`: a write
through the reference `get_mut` returns (`getMutWrite`) rebinds the key found to the written value, and nothing
else.
-/

namespace BtreeMonstrousity

open Node

variable {K V κ : Type}

/-- `BTreeMap`: the root when there is one, and the length field -/
structure BTreeMap (K V : Type) where
  root : Option (Root K V)
  length : ℕ

/-- `Entry`: vacant, with the key and the leaf edge when the map has a root; or occupied, at a slot -/
inductive Entry (K : Type)
  | vacant (key : K) (handle : Option Handle)
  | occupied (handle : Handle)

namespace BTreeMap

/-- `BTreeMap::new` -/
def new : BTreeMap K V := ⟨none, 0⟩

/-- the entries in key order, as a full traversal yields them -/
def entries (m : BTreeMap K V) : List (K × V) :=
  match m.root with
  | none => []
  | some r => r.inorder

/-- `get` / `get_key_value` / `get_mut`: `search_tree` from the root, the found slot's pair read through `f` -/
def lookupWith {α : Type} (f : K × V → α) (m : BTreeMap K V) (comp : Comparator K) : Option α :=
  m.root.bind fun r =>
    match searchTree comp r.height r.node with
    | .found hd => (kvAt r.node hd).map f
    | .goDown _ => none

/-- `BTreeMap::get` -/
def get (m : BTreeMap K V) (comp : Comparator K) : Option V := lookupWith Prod.snd m comp

/-- `BTreeMap::get_key_value` -/
def getKeyValue (m : BTreeMap K V) (comp : Comparator K) : Option (K × V) := lookupWith id m comp

/-- `BTreeMap::get_mut` -/
def getMut (m : BTreeMap K V) (comp : Comparator K) : Option V := lookupWith Prod.snd m comp

/-- `if let Some(v) = get_mut(comp) { *v = f(v) }`: the value in the slot `search_tree` finds written through
`into_val_mut`; nothing written when it finds none -/
def getMutWrite (m : BTreeMap K V) (comp : Comparator K) (f : V → V) : BTreeMap K V :=
  match m.root with
  | none => m
  | some r =>
    match searchTree comp r.height r.node with
    | .found hd => { m with root := some (r.writeAt hd fun kv => (kv.1, f kv.2)) }
    | .goDown _ => m

/-- `BTreeMap::contains_key` -/
def containsKey (m : BTreeMap K V) (comp : Comparator K) : Bool := (get m comp).isSome

/-- `BTreeMap::entry` -/
def entry (m : BTreeMap K V) (key : K) (comp : Comparator K) : Entry K :=
  match m.root with
  | none => .vacant key none
  | some r =>
    match searchTree comp r.height r.node with
    | .found hd => .occupied hd
    | .goDown hd => .vacant key (some hd)

/-- Modelled from the spec: `OccupiedEntry::insert`, the value written in place and the old one returned -/
def occupiedInsert (m : BTreeMap K V) (hd : Handle) (value : V) : Option V × BTreeMap K V :=
  match m.root with
  | some r => ((kvAt r.node hd).map Prod.snd, { m with root := some (r.setVal hd value) })
  | none => (none, m)

/-- `first_key_value` -/
def firstKeyValue (m : BTreeMap K V) : Option (K × V) :=
  m.root.bind fun r => (rightKv r.node (firstLeafEdge r.height r.node)).bind (kvAt r.node)

/-- `last_key_value` -/
def lastKeyValue (m : BTreeMap K V) : Option (K × V) :=
  m.root.bind fun r => (leftKv (lastLeafEdge r.height r.node)).bind (kvAt r.node)

/-- `first_entry`: the first slot -/
def firstEntry (m : BTreeMap K V) : Option Handle :=
  m.root.bind fun r => rightKv r.node (firstLeafEdge r.height r.node)

/-- `last_entry`: the last slot -/
def lastEntry (m : BTreeMap K V) : Option Handle :=
  m.root.bind fun r => leftKv (lastLeafEdge r.height r.node)

/-- `clear` -/
def clear (_ : BTreeMap K V) : BTreeMap K V := new

section Layer

variable (L : NodeLayer K V)

/-- Modelled from the spec: `VacantEntry::insert`, a new root leaf for an empty map, else `insert_recursing` at
the leaf edge; the length field set to 1 or raised by one -/
def vacantInsert (m : BTreeMap K V) (key : K) : Option Handle → V → BTreeMap K V
  | none, value => ⟨some (Root.leaf [(key, value)]), 1⟩
  | some hd, value =>
    match m.root with
    | some r => ⟨some (L.insertRecursing r hd key value).1, m.length + 1⟩
    | none => m

/-- Modelled from the spec: `OccupiedEntry::remove_entry` (`remove_kv`): `remove_kv_tracking` at the slot, the
length field lowered by one -/
def occupiedRemoveEntry (m : BTreeMap K V) (hd : Handle) : Option (K × V) × BTreeMap K V :=
  match m.root with
  | some r => ((L.removeKvTracking r hd).1, ⟨some (L.removeKvTracking r hd).2.1, m.length - 1⟩)
  | none => (none, m)

/-- `BTreeMap::insert` -/
def insert (m : BTreeMap K V) (key : K) (value : V) (comp : Comparator K) : Option V × BTreeMap K V :=
  match entry m key comp with
  | .occupied hd => occupiedInsert m hd value
  | .vacant k hd => (none, vacantInsert L m k hd value)

/-- `BTreeMap::remove_entry` -/
def removeEntry (m : BTreeMap K V) (comp : Comparator K) : Option (K × V) × BTreeMap K V :=
  match m.root with
  | none => (none, m)
  | some r =>
    match searchTree comp r.height r.node with
    | .found hd => occupiedRemoveEntry L m hd
    | .goDown _ => (none, m)

/-- `BTreeMap::remove` -/
def remove (m : BTreeMap K V) (comp : Comparator K) : Option V × BTreeMap K V :=
  (removeEntry L m comp).map (Option.map Prod.snd) id

/-- `pop_first` -/
def popFirst (m : BTreeMap K V) : Option (K × V) × BTreeMap K V :=
  match firstEntry m with
  | some hd => occupiedRemoveEntry L m hd
  | none => (none, m)

/-- `pop_last` -/
def popLast (m : BTreeMap K V) : Option (K × V) × BTreeMap K V :=
  match lastEntry m with
  | some hd => occupiedRemoveEntry L m hd
  | none => (none, m)

end Layer

@[simp] theorem entries_none (n : ℕ) : (⟨none, n⟩ : BTreeMap K V).entries = [] := rfl

@[simp] theorem entries_some (r : Root K V) (n : ℕ) : (⟨some r, n⟩ : BTreeMap K V).entries = r.inorder := rfl

end BTreeMap

/-! ## Operations as steps -/

section Step

variable [LinearOrder κ] (L : NodeLayer K V) (key : K → κ)

/-- the comparator `|k| compare(t, key(k))` of a target `t` -/
def targetComp (t : κ) : Comparator K := Comparator.ofFn fun k => compare t (key k)

/-- one operation on the map: its output and the map after -/
def step (m : BTreeMap K V) : MapOp K V κ → MapOut K V × BTreeMap K V
  | .insert k v => (BTreeMap.insert L m k v (targetComp key (key k))).map .value id
  | .entryInsert k v =>
    match BTreeMap.entry m k (targetComp key (key k)) with
    | .occupied hd => (BTreeMap.occupiedInsert m hd v).map .occupied id
    | .vacant k' hd => (.vacant v, BTreeMap.vacantInsert L m k' hd v)
  | .remove t => (BTreeMap.remove L m (targetComp key t)).map .value id
  | .removeEntry t => (BTreeMap.removeEntry L m (targetComp key t)).map .entry id
  | .get t => (.value (BTreeMap.get m (targetComp key t)), m)
  | .getMut t => (.value (BTreeMap.getMut m (targetComp key t)), m)
  | .getKeyValue t => (.entry (BTreeMap.getKeyValue m (targetComp key t)), m)
  | .containsKey t => (.bool (BTreeMap.containsKey m (targetComp key t)), m)
  | .firstKeyValue => (.entry (BTreeMap.firstKeyValue m), m)
  | .lastKeyValue => (.entry (BTreeMap.lastKeyValue m), m)
  | .popFirst => (BTreeMap.popFirst L m).map .entry id
  | .popLast => (BTreeMap.popLast L m).map .entry id
  | .clear => (.unit, BTreeMap.clear m)

/-- the map after a run of operations from `m` -/
def run (m : BTreeMap K V) (ops : List (MapOp K V κ)) : BTreeMap K V :=
  ops.foldl (fun m o => (step L key m o).2) m

/-- the map's invariant: the length field counts the entries, and their keys strictly ascend -/
structure Inv (m : BTreeMap K V) : Prop where
  length_eq : m.length = m.entries.length
  ascending : Ascending key (m.entries.map Prod.fst)

theorem inv_new : Inv key (BTreeMap.new : BTreeMap K V) := ⟨rfl, List.Pairwise.nil⟩

end Step

/-! ## Search with a target -/

section Search

variable [LinearOrder κ] {key : K → κ}

/-- `search_tree` with `|k| compare(t, key(k))` on ascending keys: the slot holding `t`, or the leaf edge at
`t`'s rank when no key is `t` -/
theorem Root.search_target (r : Root K V) (hA : Ascending key (r.inorder.map Prod.fst)) (t : κ) :
    match searchTree (targetComp key t) r.height r.node with
    | .found hd => ∃ x, r.IsKV hd ∧ r.inorder[r.rank hd]? = some x ∧ key x.1 = t
    | .goDown hd => r.IsLeafEdge hd ∧
        r.rank hd = countGt (fun k => compare t (key k)) (r.inorder.map Prod.fst) ∧ ∀ x ∈ r.inorder, key x.1 ≠ t := by
  have := searchTree_ofFn (V := V) (fun k => compare t (key k)) r.height r.node r.shaped (hA.bisects t)
  unfold targetComp
  generalize searchTree (Comparator.ofFn fun k => compare t (key k)) r.height r.node = res at this ⊢
  cases res with
  | found hd =>
    obtain ⟨hkv, -, x, hx, he⟩ := this
    refine ⟨x, hkv, ?_, (compare_eq_iff_eq.1 he).symm⟩
    rw [Root.rank, Root.inorder, getElem?_inorder_rank _ _ _ _ r.shaped hkv.1 hkv.2, hx]
  | goDown hd =>
    obtain ⟨hle, hrk, hne⟩ := this
    exact ⟨hle, hrk, fun x hx he => hne x hx (compare_eq_iff_eq.2 he.symm)⟩

theorem lookupWith_target {α : Type} (f : K × V → α) {m : BTreeMap K V} (hA : Ascending key (m.entries.map Prod.fst))
    (t : κ) : BTreeMap.lookupWith f m (targetComp key t) = (find key t m.entries).map f := by
  rcases m with ⟨_ | r, n⟩
  · rfl
  · have := r.search_target hA t
    simp only [BTreeMap.lookupWith, Option.some_bind, BTreeMap.entries_some]
    generalize searchTree (targetComp key t) r.height r.node = res at this ⊢
    cases res with
    | found hd =>
      obtain ⟨x, hkv, hx, rfl⟩ := this
      dsimp only
      rw [r.kvAt_eq hkv, hx, (show Ascending key (r.inorder.map Prod.fst) from hA).find_getElem? hx]
    | goDown hd =>
      obtain ⟨-, -, hne⟩ := this
      rw [(find_eq_none key).2 hne]; rfl

/-- `entry(k)` with `|k'| compare(key k, key k')`, on ascending keys: occupied at the slot holding `key k`, or
vacant at `key k`'s leaf edge, or vacant without a handle when the map has no root -/
theorem entry_cases {m : BTreeMap K V} (hA : Ascending key (m.entries.map Prod.fst)) (k : K) :
    (∃ r hd x, m.root = some r ∧ BTreeMap.entry m k (targetComp key (key k)) = .occupied hd ∧ r.IsKV hd ∧
      r.inorder[r.rank hd]? = some x ∧ key x.1 = key k) ∨
    (m.root = none ∧ BTreeMap.entry m k (targetComp key (key k)) = .vacant k none) ∨
    (∃ r e, m.root = some r ∧ BTreeMap.entry m k (targetComp key (key k)) = .vacant k (some e) ∧ r.IsLeafEdge e ∧
      r.rank e = countGt (fun k' => compare (key k) (key k')) (r.inorder.map Prod.fst) ∧
      ∀ x ∈ r.inorder, key x.1 ≠ key k) := by
  rcases m with ⟨_ | r, n⟩
  · exact .inr (.inl ⟨rfl, rfl⟩)
  · have := r.search_target hA (key k)
    generalize hs : searchTree (targetComp key (key k)) r.height r.node = res at this
    cases res with
    | found hd =>
      obtain ⟨x, hkv, hx, hkx⟩ := this
      exact .inl ⟨r, hd, x, rfl, by simp [BTreeMap.entry, hs], hkv, hx, hkx⟩
    | goDown hd => exact .inr (.inr ⟨r, hd, rfl, by simp [BTreeMap.entry, hs], this⟩)

end Search

/-! ## The mutations -/

section Mutations

variable [LinearOrder κ] {key : K → κ} (L : NodeLayer K V)

/-- `OccupiedEntry::insert` at the slot of `x`: the old value out, the key's binding rewritten in place -/
theorem occupiedInsert_spec {r : Root K V} {n : ℕ} (hI : Inv key ⟨some r, n⟩) {hd : Handle} {x : K × V}
    (hkv : r.IsKV hd) (hx : r.inorder[r.rank hd]? = some x) (v : V) :
    (BTreeMap.occupiedInsert ⟨some r, n⟩ hd v).1 = some x.2 ∧
      (∀ t, find key t (BTreeMap.occupiedInsert ⟨some r, n⟩ hd v).2.entries =
        if t = key x.1 then some (x.1, v) else find key t r.inorder) ∧
      Inv key (BTreeMap.occupiedInsert ⟨some r, n⟩ hd v).2 := by
  have hA : Ascending key (r.inorder.map Prod.fst) := hI.ascending
  have he : (BTreeMap.occupiedInsert ⟨some r, n⟩ hd v).2.entries = r.inorder.modify (fun kv => (kv.1, v)) (r.rank hd) :=
    r.inorder_setVal hkv v
  refine ⟨by simp [BTreeMap.occupiedInsert, r.kvAt_eq hkv, hx], fun t => by rw [he, hA.find_modify hx], ?_, ?_⟩
  · rw [he, List.length_modify]; exact hI.length_eq
  · rw [he]; exact hA.modify v _

/-- `VacantEntry::insert` where `key k` is unbound: `k` bound to `v`, the length field raised with the entries -/
theorem vacantInsert_spec {m : BTreeMap K V} (hI : Inv key m) {k : K} {hd : Option Handle}
    (hvac : (m.root = none ∧ hd = none) ∨ ∃ r e, m.root = some r ∧ hd = some e ∧ r.IsLeafEdge e ∧
      r.rank e = countGt (fun k' => compare (key k) (key k')) (r.inorder.map Prod.fst) ∧
      ∀ x ∈ r.inorder, key x.1 ≠ key k) (v : V) :
    find key (key k) m.entries = none ∧
      (∀ t, find key t (BTreeMap.vacantInsert L m k hd v).entries =
        if t = key k then some (k, v) else find key t m.entries) ∧
      Inv key (BTreeMap.vacantInsert L m k hd v) := by
  rcases hvac with ⟨hm, rfl⟩ | ⟨r, e, hm, rfl, hle, hrk, hne⟩
  · rcases m with ⟨_ | _, n⟩
    · refine ⟨rfl, fun t => ?_, rfl, List.pairwise_singleton _ _⟩
      by_cases ht : t = key k <;> simp [BTreeMap.vacantInsert, find, ht, eq_comm]
    · cases hm
  · rcases m with ⟨_ | r, n⟩
    · cases hm
    · cases hm
      have hA : Ascending key (r.inorder.map Prod.fst) := hI.ascending
      have hins : (BTreeMap.vacantInsert L ⟨some r, n⟩ k (some e) v).entries =
          r.inorder.take (r.rank e) ++ (k, v) :: r.inorder.drop (r.rank e) := L.insert_inorder r e k v hle
      refine ⟨(find_eq_none key).2 hne, fun t => by rw [hins, find_insert_of_forall_ne key hne]; rfl, ?_, ?_⟩
      · have hn : n = r.inorder.length := hI.length_eq
        show n + 1 = _
        rw [hins, hn]
        have := r.rank_le hle
        simp only [BTreeMap.entries_some, List.length_append, List.length_take, List.length_cons, List.length_drop]
        omega
      · rw [hins, List.map_append, List.map_cons, List.map_take, List.map_drop, hrk]
        exact hA.insert_countGt k fun k' hk' => by
          obtain ⟨x, hx, rfl⟩ := List.mem_map.1 hk'
          exact fun h => hne x hx (compare_eq_iff_eq.1 h).symm

/-- `OccupiedEntry::remove_entry` at the slot of `x`: `x` out, its key unbound, the length field lowered -/
theorem occupiedRemoveEntry_spec {r : Root K V} {n : ℕ} (hI : Inv key ⟨some r, n⟩) {hd : Handle}
    (hkv : r.IsKV hd) :
    (BTreeMap.occupiedRemoveEntry L ⟨some r, n⟩ hd).1 = r.inorder[r.rank hd]? ∧
      (BTreeMap.occupiedRemoveEntry L ⟨some r, n⟩ hd).2.entries =
        r.inorder.take (r.rank hd) ++ r.inorder.drop (r.rank hd + 1) ∧
      Inv key (BTreeMap.occupiedRemoveEntry L ⟨some r, n⟩ hd).2 := by
  have hA : Ascending key (r.inorder.map Prod.fst) := hI.ascending
  have he := L.remove_inorder r hd hkv
  refine ⟨by rw [BTreeMap.occupiedRemoveEntry, L.remove_pair r hd hkv, r.kvAt_eq hkv], he, ?_, ?_⟩
  · have hn : n = r.inorder.length := hI.length_eq
    show n - 1 = _
    rw [BTreeMap.occupiedRemoveEntry, BTreeMap.entries_some, he, hn]
    have := r.rank_lt hkv
    simp only [BTreeMap.entries_some, List.length_append, List.length_take, List.length_drop]
    omega
  · show Ascending key ((BTreeMap.occupiedRemoveEntry L ⟨some r, n⟩ hd).2.entries.map Prod.fst)
    rw [BTreeMap.occupiedRemoveEntry, BTreeMap.entries_some, he]
    exact hA.erase _

/-- `entry(k)` and then `insert(v)` on it: occupied, the old value out and the key rebound in place; vacant, the
key bound; either way a finite-map update -/
theorem entry_insert {m : BTreeMap K V} (hI : Inv key m) (k : K) (v : V) :
    (∃ hd x, BTreeMap.entry m k (targetComp key (key k)) = .occupied hd ∧ find key (key k) m.entries = some x ∧
      (BTreeMap.occupiedInsert m hd v).1 = some x.2 ∧
      Updated key m.entries (BTreeMap.occupiedInsert m hd v).2.entries k v ∧
      Inv key (BTreeMap.occupiedInsert m hd v).2) ∨
    (∃ hd, BTreeMap.entry m k (targetComp key (key k)) = .vacant k hd ∧ find key (key k) m.entries = none ∧
      Updated key m.entries (BTreeMap.vacantInsert L m k hd v).entries k v ∧
      Inv key (BTreeMap.vacantInsert L m k hd v)) := by
  rcases entry_cases hI.ascending k with ⟨r, hd, x, hm, he, hkv, hx, hkx⟩ | ⟨hm, he⟩ | ⟨r, e, hm, he, hvac⟩
  · rcases m with ⟨_ | r', n⟩ <;> cases hm
    have hf : find key (key k) r.inorder = some x := hkx ▸ (show Ascending key _ from hI.ascending).find_getElem? hx
    obtain ⟨h1, h2, h3⟩ := occupiedInsert_spec hI hkv hx v
    exact .inl ⟨hd, x, he, hf, h1, Updated.of_present key hf hkx h2, h3⟩
  · obtain ⟨h0, h2, h3⟩ := vacantInsert_spec L hI (.inl ⟨hm, rfl⟩) v
    exact .inr ⟨none, he, h0, Updated.of_absent key h0 h2, h3⟩
  · obtain ⟨h0, h2, h3⟩ := vacantInsert_spec L hI (.inr ⟨r, e, hm, rfl, hvac⟩) v
    exact .inr ⟨some e, he, h0, Updated.of_absent key h0 h2, h3⟩

/-- `remove_entry(t)`: the pair under `t` out and `t` unbound; nothing changes when `t` is unbound -/
theorem removeEntry_spec {m : BTreeMap K V} (hI : Inv key m) (t : κ) :
    (BTreeMap.removeEntry L m (targetComp key t)).1 = find key t m.entries ∧
      Erased key m.entries (BTreeMap.removeEntry L m (targetComp key t)).2.entries t ∧
      Inv key (BTreeMap.removeEntry L m (targetComp key t)).2 := by
  rcases m with ⟨_ | r, n⟩
  · exact ⟨rfl, ⟨fun _ => by simp [BTreeMap.removeEntry], fun _ => rfl⟩, hI⟩
  · have hA : Ascending key (r.inorder.map Prod.fst) := hI.ascending
    have := r.search_target hA t
    simp only [BTreeMap.removeEntry]
    generalize searchTree (targetComp key t) r.height r.node = res at this ⊢
    cases res with
    | found hd =>
      obtain ⟨x, hkv, hx, rfl⟩ := this
      obtain ⟨h1, h2, h3⟩ := occupiedRemoveEntry_spec L hI hkv
      have hf := hA.find_getElem? hx
      refine ⟨by rw [h1, hx, BTreeMap.entries_some, hf], ⟨fun t' => by rw [h2, hA.find_erase hx]; rfl, ?_⟩, h3⟩
      rw [BTreeMap.entries_some, hf]
      exact fun h => nomatch h
    | goDown hd =>
      obtain ⟨-, -, hne⟩ := this
      have hf : find key t r.inorder = none := (find_eq_none key).2 hne
      refine ⟨hf.symm, ⟨fun t' => ?_, fun _ => rfl⟩, hI⟩
      split_ifs with ht
      · subst ht; exact hf
      · rfl

end Mutations

/-! ## First and last -/

section FirstLast

variable [LinearOrder κ] {key : K → κ} (L : NodeLayer K V)

theorem firstKeyValue_eq (m : BTreeMap K V) : BTreeMap.firstKeyValue m = m.entries.head? := by
  rcases m with ⟨_ | r, n⟩
  · rfl
  · have := firstKv_spec r.shaped r.belowFilled
    simp only [BTreeMap.firstKeyValue, Option.some_bind, BTreeMap.entries_some]
    generalize rightKv r.node (firstLeafEdge r.height r.node) = res at this ⊢
    cases res with
    | some kv =>
      obtain ⟨hkv, h0⟩ := this
      rw [Option.some_bind, r.kvAt_eq hkv, show r.rank kv = 0 from h0, List.head?_eq_getElem?]
    | none => exact (congrArg List.head? (this : r.inorder = [])).symm

theorem lastKeyValue_eq (m : BTreeMap K V) : BTreeMap.lastKeyValue m = m.entries.getLast? := by
  rcases m with ⟨_ | r, n⟩
  · rfl
  · have := lastKv_spec r.shaped r.belowFilled
    simp only [BTreeMap.lastKeyValue, Option.some_bind, BTreeMap.entries_some]
    generalize leftKv (lastLeafEdge r.height r.node) = res at this ⊢
    cases res with
    | some kv =>
      obtain ⟨hkv, hl⟩ := this
      have hl : r.rank kv = r.inorder.length - 1 := by unfold Root.rank Root.inorder; omega
      rw [Option.some_bind, r.kvAt_eq hkv, hl, List.getLast?_eq_getElem?]
    | none => exact (congrArg List.getLast? (this : r.inorder = [])).symm

/-- `pop_first`: the least entry out, the rest kept -/
theorem popFirst_spec {m : BTreeMap K V} (hI : Inv key m) :
    (BTreeMap.popFirst L m).1 = m.entries.head? ∧ (BTreeMap.popFirst L m).2.entries = m.entries.tail ∧
      Inv key (BTreeMap.popFirst L m).2 := by
  rcases m with ⟨_ | r, n⟩
  · exact ⟨rfl, rfl, hI⟩
  · have := firstKv_spec r.shaped r.belowFilled
    simp only [BTreeMap.popFirst, BTreeMap.firstEntry, Option.some_bind, BTreeMap.entries_some]
    generalize rightKv r.node (firstLeafEdge r.height r.node) = res at this ⊢
    cases res with
    | some kv =>
      obtain ⟨hkv, h0⟩ := this
      obtain ⟨h1, h2, h3⟩ := occupiedRemoveEntry_spec L hI hkv
      rw [show r.rank kv = 0 from h0] at h1 h2
      exact ⟨h1.trans (List.head?_eq_getElem? _).symm, h2.trans (by simp), h3⟩
    | none =>
      have h0 : r.inorder = [] := this
      exact ⟨by simp [h0], by simp [h0], hI⟩

/-- `pop_last`: the greatest entry out, the rest kept -/
theorem popLast_spec {m : BTreeMap K V} (hI : Inv key m) :
    (BTreeMap.popLast L m).1 = m.entries.getLast? ∧ (BTreeMap.popLast L m).2.entries = m.entries.dropLast ∧
      Inv key (BTreeMap.popLast L m).2 := by
  rcases m with ⟨_ | r, n⟩
  · exact ⟨rfl, rfl, hI⟩
  · have := lastKv_spec r.shaped r.belowFilled
    simp only [BTreeMap.popLast, BTreeMap.lastEntry, Option.some_bind, BTreeMap.entries_some]
    generalize leftKv (lastLeafEdge r.height r.node) = res at this ⊢
    cases res with
    | some kv =>
      obtain ⟨hkv, hl⟩ := this
      obtain ⟨h1, h2, h3⟩ := occupiedRemoveEntry_spec L hI hkv
      have hl : r.rank kv + 1 = r.inorder.length := hl
      refine ⟨h1.trans ?_, h2.trans ?_, h3⟩
      · rw [List.getLast?_eq_getElem?, ← hl, Nat.add_sub_cancel]
      · rw [hl, List.drop_length, List.append_nil, List.dropLast_eq_take, ← hl, Nat.add_sub_cancel]
    | none =>
      have h0 : r.inorder = [] := this
      exact ⟨by simp [h0], by simp [h0], hI⟩

end FirstLast

/-! ## Refinement -/

section Refinement

variable [LinearOrder κ] (L : NodeLayer K V) (key : K → κ)

/-- every operation, from a map satisfying `Inv`, is the finite-map step on its entries and keeps `Inv` -/
theorem step_spec {m : BTreeMap K V} (hI : Inv key m) (o : MapOp K V κ) :
    FMapStep key m.entries o (step L key m o).1 (step L key m o).2.entries ∧ Inv key (step L key m o).2 := by
  have hA := hI.ascending
  cases o with
  | insert k v | entryInsert k v =>
    rcases entry_insert L hI k v with ⟨hd, ⟨xk, xv⟩, he, hf, h1, h2, h3⟩ | ⟨hd, he, hf, h2, h3⟩
    · simp only [step, BTreeMap.insert, he, hf, h1, FMapStep, Prod.map_fst, Prod.map_snd, id, Option.map_some']
      exact ⟨⟨by trivial, h2⟩, h3⟩
    · simp only [step, BTreeMap.insert, he, hf, FMapStep, Prod.map_fst, Prod.map_snd, id, Option.map_none']
      exact ⟨⟨by trivial, h2⟩, h3⟩
  | remove t | removeEntry t =>
    obtain ⟨h1, h2, h3⟩ := removeEntry_spec L hI t
    simp only [step, BTreeMap.remove, FMapStep, Prod.map_fst, Prod.map_snd, id, h1]
    exact ⟨⟨by trivial, h2⟩, h3⟩
  | get t | getMut t | getKeyValue t =>
    simp only [step, FMapStep, BTreeMap.get, BTreeMap.getMut, BTreeMap.getKeyValue, lookupWith_target _ hA,
      Option.map_id, id]
    exact ⟨⟨by trivial, by trivial⟩, hI⟩
  | containsKey t =>
    simp only [step, FMapStep, BTreeMap.containsKey, BTreeMap.get, lookupWith_target _ hA, Option.isSome_map']
    exact ⟨⟨by trivial, by trivial⟩, hI⟩
  | firstKeyValue => exact ⟨⟨by rw [step, firstKeyValue_eq], rfl⟩, hI⟩
  | lastKeyValue => exact ⟨⟨by rw [step, lastKeyValue_eq], rfl⟩, hI⟩
  | popFirst =>
    obtain ⟨h1, h2, h3⟩ := popFirst_spec L hI
    exact ⟨⟨by simp only [step, Prod.map_fst, h1], by simp only [step, Prod.map_snd, id, h2]⟩, h3⟩
  | popLast =>
    obtain ⟨h1, h2, h3⟩ := popLast_spec L hI
    exact ⟨⟨by simp only [step, Prod.map_fst, h1], by simp only [step, Prod.map_snd, id, h2]⟩, h3⟩
  | clear => exact ⟨⟨rfl, rfl⟩, inv_new key⟩

/-- every map reached by a run from one satisfying `Inv` satisfies it -/
theorem run_inv : ∀ (ops : List (MapOp K V κ)) {m : BTreeMap K V}, Inv key m → Inv key (run L key m ops)
  | [], _, hI => hI
  | o :: ops, _, hI => run_inv ops (step_spec L key hI o).2

/-- **A `BTreeMap` refines a finite map.** For every node layer meeting its in-order contract, every order
`key`, and every run of operations from `BTreeMap::new`, each comparator `|k| compare(t, key(k))`: the map reached
has strictly ascending keys and a length field equal to its number of entries, and any next operation does what a
finite map does (`FMapStep`): `get` / `get_mut` / `get_key_value` / `contains_key` answer the entry under `t`;
`insert` and `entry(k).insert` return the replaced value (`None` when absent) and bind the key to the new value
under the key first stored for it; `remove` / `remove_entry` return the removed value / pair (`None` and no change
when absent); `first/last_key_value` return and `pop_first/last` remove and return the least / greatest entry;
`clear` empties; and the invariant holds after it. -/
theorem map_refines_finite_map (ops : List (MapOp K V κ)) (o : MapOp K V κ) :
    Inv key (run L key .new ops) ∧
      FMapStep key (run L key .new ops).entries o (step L key (run L key .new ops) o).1
        (step L key (run L key .new ops) o).2.entries ∧
      Inv key (step L key (run L key .new ops) o).2 :=
  have hI := run_inv L key ops (inv_new key)
  ⟨hI, step_spec L key hI o⟩

end Refinement

/-! ## Writes through `get_mut` -/

section GetMut

variable [LinearOrder κ] {key : K → κ}

/-- **A write through `get_mut`.** On a map whose length field counts its entries and whose keys strictly ascend,
writing `f(v)` through the reference `get_mut` returns for a target `t` rebinds the key stored under `t` to `f` of
its value, changes no other binding and keeps the invariant; nothing changes when `t` is unbound. -/
theorem getMutWrite_spec {m : BTreeMap K V} (hI : Inv key m) (t : κ) (f : V → V) :
    Inv key (m.getMutWrite (targetComp key t) f) ∧
      ∀ t', find key t' (m.getMutWrite (targetComp key t) f).entries =
        if t' = t then (find key t m.entries).map (fun kv => (kv.1, f kv.2)) else find key t' m.entries := by
  rcases m with ⟨_ | r, n⟩
  · exact ⟨hI, fun t' => by split_ifs <;> rfl⟩
  · have hA : Ascending key (r.inorder.map Prod.fst) := hI.ascending
    have hs := r.search_target hA t
    simp only [BTreeMap.getMutWrite]
    generalize searchTree (targetComp key t) r.height r.node = res at hs ⊢
    cases res with
    | found hd =>
      obtain ⟨x, hkv, hx, rfl⟩ := hs
      have he : (r.writeAt hd fun kv => (kv.1, f kv.2)).inorder =
          r.inorder.modify (fun kv => (kv.1, f x.2)) (r.rank hd) :=
        (r.inorder_writeAt hkv _).trans (modify_congr_at hx rfl)
      refine ⟨⟨?_, ?_⟩, fun t' => ?_⟩ <;> simp only [BTreeMap.entries_some, he]
      · rw [List.length_modify]; exact hI.length_eq
      · exact hA.modify _ _
      · rw [hA.find_modify hx, hA.find_getElem? hx]; rfl
    | goDown hd =>
      refine ⟨hI, fun t' => ?_⟩
      split_ifs with ht
      · show find key t' r.inorder = (find key t r.inorder).map _
        rw [ht, (find_eq_none key).2 hs.2.2]; rfl
      · rfl

/-- writing `v + 1` through `get_mut(2)` on the keys `1, 2` binds `2` to `21` -/
theorem getMutWrite_spec_two :
    Inv id (⟨some (Root.leaf [(1, 10), (2, 20)]), 2⟩ : BTreeMap ℕ ℕ) ∧
      find id 2 ((⟨some (Root.leaf [(1, 10), (2, 20)]), 2⟩ : BTreeMap ℕ ℕ).getMutWrite (targetComp id 2)
        (· + 1)).entries = some (2, 21) :=
  have hI : Inv id (⟨some (Root.leaf [(1, 10), (2, 20)]), 2⟩ : BTreeMap ℕ ℕ) := ⟨rfl, by decide⟩
  ⟨hI, ((getMutWrite_spec hI 2 (· + 1)).2 2).trans (by decide)⟩

end GetMut

/-- the keys `1, 2, 3, 4` with the values `10, 20, 30, 40`, in one leaf -/
def fourEntries : BTreeMap ℕ ℕ := ⟨some (Root.leaf [(1, 10), (2, 20), (3, 30), (4, 40)]), 4⟩

end BtreeMonstrousity
