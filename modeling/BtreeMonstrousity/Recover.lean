import BtreeMonstrousity.Map

/-!
`Recover` for `BTreeMap<K, SetValZST>` (`map.rs`; the trait is in `mod.rs`): the lookups by comparator a set makes,
which answer with the key stored in the tree. `SetValZST` is `Unit`.

- `Recover.get`: `search_tree` from the root, the found slot's key.
- `Recover.take`: `search_tree` from the root, then `OccupiedEntry::remove_kv` at a found slot, its key returned.
- `Recover.replace`: an empty leaf root put in first when the map has none (`get_or_insert_with`), `search_tree`,
  then at a found slot the key swapped in place through `key_mut` and the old key returned; otherwise
  `VacantEntry::insert` of `(key, SetValZST)` at the leaf edge.
- `SetOp` / `FSetStep`: runs that mix the map's own operations (`MapOp`) with these three, and what a finite set of
  stored keys does on each; `setStep` / `setRun` run them on a `BTreeMap<K, ()>`.

Results:
- `Recover.take_spec`, `Recover.replace_spec`: on ascending keys, `take` removes and returns the key stored under
  `t`; `replace` returns the key stored under `key k` and leaves `k` stored there (unlike `insert`, which keeps the
  key first stored), inserting it when absent; both keep the map's invariant.
- `recover_refines_finite_set`: every run of map and set operations from `BTreeMap::new` keeps the invariant, and
  each next operation does what the finite set of stored keys does.
-/

namespace BtreeMonstrousity

open Node

variable {K κ : Type}

namespace Recover

variable (L : NodeLayer K Unit)

/-- `Recover::get` -/
def get (m : BTreeMap K Unit) (comp : Comparator K) : Option K := BTreeMap.lookupWith Prod.fst m comp

/-- `Recover::take` -/
def take (m : BTreeMap K Unit) (comp : Comparator K) : Option K × BTreeMap K Unit :=
  match m.root with
  | none => (none, m)
  | some r =>
    match searchTree comp r.height r.node with
    | .found hd => (BTreeMap.occupiedRemoveEntry L m hd).map (Option.map Prod.fst) id
    | .goDown _ => (none, m)

/-- `Recover::replace` -/
def replace (m : BTreeMap K Unit) (key : K) (comp : Comparator K) : Option K × BTreeMap K Unit :=
  let root := m.root.getD (Root.leaf [])
  match searchTree comp root.height root.node with
  | .found kv => ((kvAt root.node kv).map Prod.fst, { m with root := some (root.setKey kv key) })
  | .goDown hd => (none, BTreeMap.vacantInsert L { m with root := some root } key (some hd) ())

end Recover

/-! ## One operation -/

section Spec

variable [LinearOrder κ] {key : K → κ} (L : NodeLayer K Unit)

/-- `take` is `remove_entry` keeping the key: the source repeats its body with `remove_kv().0` -/
theorem Recover.take_eq (m : BTreeMap K Unit) (comp : Comparator K) :
    Recover.take L m comp = (BTreeMap.removeEntry L m comp).map (Option.map Prod.fst) id := by
  rcases m with ⟨_ | r, n⟩
  · rfl
  · simp only [Recover.take, BTreeMap.removeEntry]
    generalize searchTree comp r.height r.node = res
    cases res <;> rfl

/-- `take(t)`: the key stored under `t` out and `t` unbound; nothing changes when `t` is unbound -/
theorem Recover.take_spec {m : BTreeMap K Unit} (hI : Inv key m) (t : κ) :
    (Recover.take L m (targetComp key t)).1 = (find key t m.entries).map Prod.fst ∧
      Erased key m.entries (Recover.take L m (targetComp key t)).2.entries t ∧
      Inv key (Recover.take L m (targetComp key t)).2 := by
  obtain ⟨h1, h2, h3⟩ := removeEntry_spec L hI t
  rw [Recover.take_eq]
  exact ⟨by rw [Prod.map_fst, h1], h2, h3⟩

/-- `replace(k)` with `|k'| compare(key k, key k')`: the key stored under `key k` returned, and `k` stored under
`key k` in its place, or inserted when `key k` is unbound; every other binding kept -/
theorem Recover.replace_spec {m : BTreeMap K Unit} (hI : Inv key m) (k : K) :
    (Recover.replace L m k (targetComp key (key k))).1 = (find key (key k) m.entries).map Prod.fst ∧
      (∀ t, find key t (Recover.replace L m k (targetComp key (key k))).2.entries =
        if t = key k then some (k, ()) else find key t m.entries) ∧
      Inv key (Recover.replace L m k (targetComp key (key k))).2 := by
  -- the root searched: the map's, or an empty leaf
  have hent : (m.root.getD (Root.leaf [])).inorder = m.entries := by rcases m with ⟨_ | r, n⟩ <;> rfl
  have hA : Ascending key ((m.root.getD (Root.leaf [])).inorder.map Prod.fst) := hent ▸ hI.ascending
  have hs := (m.root.getD (Root.leaf [])).search_target hA (key k)
  unfold Recover.replace
  dsimp only
  generalize m.root.getD (Root.leaf []) = r at hent hA hs ⊢
  generalize searchTree (targetComp key (key k)) r.height r.node = res at hs ⊢
  cases res with
  | found kv =>
    dsimp only
    obtain ⟨x, hkv, hx, hxk⟩ := hs
    have hf : find key (key k) m.entries = some x := hent ▸ hxk ▸ hA.find_getElem? hx
    have he : (r.setKey kv k).inorder = r.inorder.modify (fun kv => (k, kv.2)) (r.rank kv) := r.inorder_writeAt hkv _
    refine ⟨by rw [r.kvAt_eq hkv, hx, hf], fun t => ?_, ?_, ?_⟩
    · show find key t (r.setKey kv k).inorder = _
      rw [he, hA.find_modify_key hx hxk.symm, hxk, hent]
    · show m.length = (r.setKey kv k).inorder.length
      rw [he, List.length_modify, hent]; exact hI.length_eq
    · show Ascending key ((r.setKey kv k).inorder.map Prod.fst)
      rw [he]; exact hA.modify_key hx hxk.symm
  | goDown e =>
    dsimp only
    have hI' : Inv key { m with root := some r } := ⟨hI.length_eq.trans (congrArg List.length hent.symm), hA⟩
    obtain ⟨h0, h2, h3⟩ := vacantInsert_spec L hI' (.inr ⟨r, e, rfl, rfl, hs⟩) ()
    rw [show ({ m with root := some r } : BTreeMap K Unit).entries = m.entries from hent] at h0 h2
    exact ⟨by rw [h0]; rfl, h2, h3⟩

end Spec

/-! ## Runs of map and set operations -/

/-- an operation on a `BTreeMap<K, SetValZST>`: one of the map's own, or one of `Recover`'s, each by a target `t`
compared as `|k| compare(t, key(k))`; `replace(k)` compares with `key k` -/
inductive SetOp (K κ : Type)
  | map (o : MapOp K Unit κ)
  | get (t : κ)
  | take (t : κ)
  | replace (k : K)

/-- what an operation returns: the map operation's output, or a stored key -/
inductive SetOut (K : Type)
  | map (out : MapOut K Unit)
  | key (k : Option K)

section Step

variable [LinearOrder κ] (L : NodeLayer K Unit) (key : K → κ)

/-- one operation of the finite set of stored keys `l`: the map's operations as `FMapStep` says; `get` and `take`
answer the key stored under `t`, `take` unbinding it; `replace(k)` answers the key stored under `key k` and leaves
`k` stored there -/
def FSetStep (l : List (K × Unit)) : SetOp K κ → SetOut K → List (K × Unit) → Prop
  | .map o, out, l' => ∃ out', out = .map out' ∧ FMapStep key l o out' l'
  | .get t, out, l' => out = .key ((find key t l).map Prod.fst) ∧ l' = l
  | .take t, out, l' => out = .key ((find key t l).map Prod.fst) ∧ Erased key l l' t
  | .replace k, out, l' => out = .key ((find key (key k) l).map Prod.fst) ∧
      ∀ t, find key t l' = if t = key k then some (k, ()) else find key t l

/-- one operation on the map: its output and the map after -/
def setStep (m : BTreeMap K Unit) : SetOp K κ → SetOut K × BTreeMap K Unit
  | .map o => (step L key m o).map .map id
  | .get t => (.key (Recover.get m (targetComp key t)), m)
  | .take t => (Recover.take L m (targetComp key t)).map .key id
  | .replace k => (Recover.replace L m k (targetComp key (key k))).map .key id

/-- the map after a run of operations from `m` -/
def setRun (m : BTreeMap K Unit) (ops : List (SetOp K κ)) : BTreeMap K Unit :=
  ops.foldl (fun m o => (setStep L key m o).2) m

/-- every operation, from a map satisfying `Inv`, is the finite-set step on its entries and keeps `Inv` -/
theorem setStep_spec {m : BTreeMap K Unit} (hI : Inv key m) (o : SetOp K κ) :
    FSetStep key m.entries o (setStep L key m o).1 (setStep L key m o).2.entries ∧
      Inv key (setStep L key m o).2 := by
  cases o with
  | map o =>
    obtain ⟨h1, h2⟩ := step_spec L key hI o
    exact ⟨⟨_, rfl, h1⟩, h2⟩
  | get t => exact ⟨⟨by rw [setStep, Recover.get, lookupWith_target _ hI.ascending], rfl⟩, hI⟩
  | take t =>
    obtain ⟨h1, h2, h3⟩ := Recover.take_spec L hI t
    exact ⟨⟨by rw [setStep, Prod.map_fst, h1], h2⟩, h3⟩
  | replace k =>
    obtain ⟨h1, h2, h3⟩ := Recover.replace_spec L hI k
    exact ⟨⟨by rw [setStep, Prod.map_fst, h1], h2⟩, h3⟩

theorem setRun_inv : ∀ (ops : List (SetOp K κ)) {m : BTreeMap K Unit}, Inv key m → Inv key (setRun L key m ops)
  | [], _, hI => hI
  | o :: ops, _, hI => setRun_inv ops (setStep_spec L key hI o).2

/-- **`Recover` over a map of `SetValZST`.** For every node layer meeting its in-order contract, every order `key`
and every run that mixes the map's operations with `Recover::get`, `take` and `replace` from `BTreeMap::new`: the
map reached has strictly ascending keys and a length field equal to its number of entries, and any next operation
does what the finite set of stored keys does: the map's operations as `FMapStep`; `get(t)` returns the key stored
under `t`; `take(t)` removes and returns it (`None` and no change when absent); `replace(k)` returns the key stored
under `key k` (`None` when absent) and leaves `k` itself stored there; and the invariant holds after it. -/
theorem recover_refines_finite_set (ops : List (SetOp K κ)) (o : SetOp K κ) :
    Inv key (setRun L key .new ops) ∧
      FSetStep key (setRun L key .new ops).entries o (setStep L key (setRun L key .new ops) o).1
        (setStep L key (setRun L key .new ops) o).2.entries ∧
      Inv key (setStep L key (setRun L key .new ops) o).2 :=
  have hI := setRun_inv L key ops (inv_new key)
  ⟨hI, setStep_spec L key hI o⟩

end Step

end BtreeMonstrousity
