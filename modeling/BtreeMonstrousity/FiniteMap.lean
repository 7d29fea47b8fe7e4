import BtreeMonstrousity.PointSearch

/-!
The finite map a `BTreeMap` stands for: its entries in key order, ordered by a projection `key : K → κ` into a
linear order (the per-call comparators `|k| compare(t, key(k))` all come from it).

- `find key t l`: the entry stored under `t`.
- `MapOp` / `MapOut`: the operations of the map's public surface modelled here, and what they return.
- `FMapStep key l o out l'`: what a finite map does on operation `o`, from entries `l` to `l'`, returning `out`:
  lookups answer `find` and change nothing; `insert` binds the key, keeping the key first stored for it, and
  returns the value it replaced; `remove` unbinds it, changing nothing when it is absent; `pop_first` /
  `pop_last` remove the least / greatest entry; `clear` empties.

Results: on strictly ascending entries, an edit, an insertion or a removal at a position changes `find` at that
position's key only (`Ascending.find_modify`, `find_insert_of_forall_ne`, `Ascending.find_erase`) and keeps the
keys ascending; a key written at a position keeps them ascending exactly when it sorts strictly between its two
neighbours (`Ascending.modify_key_iff_neighbours`).
-/

namespace BtreeMonstrousity

variable {K V κ : Type} [LinearOrder κ]

/-- the entry stored under `t` -/
def find (key : K → κ) (t : κ) (l : List (K × V)) : Option (K × V) := l.find? fun kv => key kv.1 = t

/-- the operations modelled: each lookup by a target `t`, compared as `|k| compare(t, key(k))`; `insert` and
`entry(k).insert` compare with `key k` -/
inductive MapOp (K V κ : Type)
  | insert (k : K) (v : V)
  | entryInsert (k : K) (v : V)
  | remove (t : κ)
  | removeEntry (t : κ)
  | get (t : κ)
  | getMut (t : κ)
  | getKeyValue (t : κ)
  | containsKey (t : κ)
  | firstKeyValue
  | lastKeyValue
  | popFirst
  | popLast
  | clear

/-- what an operation returns -/
inductive MapOut (K V : Type)
  /-- a value: `get`, `get_mut`, `insert`, `remove` -/
  | value (v : Option V)
  /-- a pair: `get_key_value`, `remove_entry`, `first/last_key_value`, `pop_first/last` -/
  | entry (kv : Option (K × V))
  /-- `contains_key` -/
  | bool (b : Bool)
  /-- `OccupiedEntry::insert`: the value replaced -/
  | occupied (old : Option V)
  /-- `VacantEntry::insert`: the value now stored -/
  | vacant (new : V)
  /-- `clear` -/
  | unit

/-- `l'` binds `key k` to `v`, under the key first stored for it (`k` when there was none), and agrees with `l`
elsewhere -/
def Updated (key : K → κ) (l l' : List (K × V)) (k : K) (v : V) : Prop :=
  ∀ t, find key t l' = if t = key k then some (((find key t l).map Prod.fst).getD k, v) else find key t l

/-- `l'` binds nothing to `t` and agrees with `l` elsewhere; it is `l` when `t` was unbound -/
def Erased (key : K → κ) (l l' : List (K × V)) (t : κ) : Prop :=
  (∀ t', find key t' l' = if t' = t then none else find key t' l) ∧ (find key t l = none → l' = l)

/-- one operation of a finite map with entries `l` in key order: its output and the entries after -/
def FMapStep (key : K → κ) (l : List (K × V)) : MapOp K V κ → MapOut K V → List (K × V) → Prop
  | .get t, out, l' | .getMut t, out, l' => out = .value ((find key t l).map Prod.snd) ∧ l' = l
  | .getKeyValue t, out, l' => out = .entry (find key t l) ∧ l' = l
  | .containsKey t, out, l' => out = .bool (find key t l).isSome ∧ l' = l
  | .insert k v, out, l' => out = .value ((find key (key k) l).map Prod.snd) ∧ Updated key l l' k v
  | .entryInsert k v, out, l' =>
    out = (match find key (key k) l with
      | some (_, old) => .occupied (some old)
      | none => .vacant v) ∧ Updated key l l' k v
  | .remove t, out, l' => out = .value ((find key t l).map Prod.snd) ∧ Erased key l l' t
  | .removeEntry t, out, l' => out = .entry (find key t l) ∧ Erased key l l' t
  | .firstKeyValue, out, l' => out = .entry l.head? ∧ l' = l
  | .lastKeyValue, out, l' => out = .entry l.getLast? ∧ l' = l
  | .popFirst, out, l' => out = .entry l.head? ∧ l' = l.tail
  | .popLast, out, l' => out = .entry l.getLast? ∧ l' = l.dropLast
  | .clear, out, l' => out = .unit ∧ l' = []

/-! ## Lookup -/

section Find

variable (key : K → κ)

@[simp] theorem find_nil (t : κ) : find key t ([] : List (K × V)) = none := rfl

theorem find_eq_none {t : κ} {l : List (K × V)} : find key t l = none ↔ ∀ x ∈ l, key x.1 ≠ t := by
  simp [find, List.find?_eq_none]

theorem find_append_of_forall_ne {t : κ} {A : List (K × V)} (B : List (K × V)) (hA : ∀ x ∈ A, key x.1 ≠ t) :
    find key t (A ++ B) = find key t B := by
  rw [find, List.find?_append, show A.find? _ = none from (find_eq_none key).2 hA, Option.none_or]; rfl

/-- a pair `y` between `A` and `B`, none of `A`'s keys being `y`'s, answers for `y`'s key and for no other -/
theorem find_middle {A B : List (K × V)} {y : K × V} (hA : ∀ x ∈ A, key x.1 ≠ key y.1) (t : κ) :
    find key t (A ++ y :: B) = if t = key y.1 then some y else find key t (A ++ B) := by
  split_ifs with ht
  · subst ht
    rw [find_append_of_forall_ne key _ hA, find, List.find?_cons_of_pos _ (by simp)]
  · simp [find, List.find?_append, List.find?_cons, Ne.symm ht]

/-- a key absent from `l`, put at any position, answers for itself and for no other -/
theorem find_insert_of_forall_ne {l : List (K × V)} {k : K} (hne : ∀ y ∈ l, key y.1 ≠ key k) (r : ℕ) (v : V)
    (t : κ) : find key t (l.take r ++ (k, v) :: l.drop r) = if t = key k then some (k, v) else find key t l := by
  rw [find_middle key (fun y hy => hne y (List.mem_of_mem_take hy)), List.take_append_drop]

/-- a binding of an absent key is an update -/
theorem Updated.of_absent {l l' : List (K × V)} {k : K} {v : V} (h0 : find key (key k) l = none)
    (h : ∀ t, find key t l' = if t = key k then some (k, v) else find key t l) : Updated key l l' k v := by
  intro t
  rw [h t]
  split_ifs with ht
  · subst ht; simp [h0]
  · rfl

/-- a rebinding, under its stored key, of a present key is an update -/
theorem Updated.of_present {l l' : List (K × V)} {k : K} {v : V} {x : K × V} (hx : find key (key k) l = some x)
    (hkx : key x.1 = key k) (h : ∀ t, find key t l' = if t = key x.1 then some (x.1, v) else find key t l) :
    Updated key l l' k v := by
  intro t
  rw [h t, hkx]
  split_ifs with ht
  · subst ht; simp [hx]
  · rfl

end Find

/-! ## Strictly ascending entries -/

theorem modify_eq_take_cons_drop {α : Type} (g : α → α) {l : List α} {r : ℕ} (hr : r < l.length) :
    l.modify g r = l.take r ++ g l[r] :: l.drop (r + 1) := by
  rw [List.modify_eq_take_drop, List.drop_eq_getElem_cons hr, List.modifyHead_cons]

/-- an edit at position `r` reads only the entry there -/
theorem modify_congr_at {α : Type} {g g' : α → α} {l : List α} {r : ℕ} {x : α} (hx : l[r]? = some x)
    (h : g x = g' x) : l.modify g r = l.modify g' r := by
  obtain ⟨hr, rfl⟩ := List.getElem?_eq_some_iff.1 hx
  rw [List.modify_eq_take_cons_drop hr, List.modify_eq_take_cons_drop hr, h]

section Ascending

variable {key : K → κ} {l : List (K × V)}

/-- the entry at position `r` of ascending entries splits them into smaller and greater keys -/
theorem Ascending.split {r : ℕ} {x : K × V} (hA : Ascending key (l.map Prod.fst)) (hx : l[r]? = some x) :
    l = l.take r ++ x :: l.drop (r + 1) ∧ (∀ y ∈ l.take r, key y.1 ≠ key x.1) ∧
      ∀ y ∈ l.drop (r + 1), key y.1 ≠ key x.1 := by
  obtain ⟨hr, rfl⟩ := List.getElem?_eq_some_iff.1 hx
  have hl : l = l.take r ++ l[r] :: l.drop (r + 1) := by
    rw [← List.drop_eq_getElem_cons hr, List.take_append_drop]
  have hp : (l.take r ++ l[r] :: l.drop (r + 1)).Pairwise fun a b => key a.1 < key b.1 := by
    rw [← hl]; simpa [Ascending, List.pairwise_map] using hA
  obtain ⟨-, hc, hab⟩ := List.pairwise_append.1 hp
  exact ⟨hl, fun y hy => (hab y hy _ (List.mem_cons_self _ _)).ne,
    fun y hy => ((List.pairwise_cons.1 hc).1 y hy).ne'⟩

theorem Ascending.find_getElem? {r : ℕ} {x : K × V} (hA : Ascending key (l.map Prod.fst)) (hx : l[r]? = some x) :
    find key (key x.1) l = some x := by
  obtain ⟨hl, hlo, -⟩ := hA.split hx
  rw [hl, find_middle key hlo, if_pos rfl]

/-- writing a value at position `r` rebinds that entry's key, under the same key, and nothing else -/
theorem Ascending.find_modify {r : ℕ} {x : K × V} (hA : Ascending key (l.map Prod.fst)) (hx : l[r]? = some x)
    (v : V) (t : κ) :
    find key t (l.modify (fun kv => (kv.1, v)) r) = if t = key x.1 then some (x.1, v) else find key t l := by
  obtain ⟨hl, hlo, -⟩ := hA.split hx
  obtain ⟨hr, hxr⟩ := List.getElem?_eq_some_iff.1 hx
  rw [modify_eq_take_cons_drop _ hr, hxr, find_middle key (y := (x.1, v)) hlo]
  conv_rhs => rw [hl, find_middle key hlo]
  by_cases ht : t = key x.1 <;> simp [ht]

/-- removing position `r` unbinds that entry's key and nothing else -/
theorem Ascending.find_erase {r : ℕ} {x : K × V} (hA : Ascending key (l.map Prod.fst)) (hx : l[r]? = some x)
    (t : κ) : find key t (l.take r ++ l.drop (r + 1)) = if t = key x.1 then none else find key t l := by
  obtain ⟨hl, hlo, hhi⟩ := hA.split hx
  split_ifs with ht
  · subst ht
    exact (find_eq_none key).2 fun y hy => (List.mem_append.1 hy).elim (hlo y) (hhi y)
  · conv_rhs => rw [hl, find_middle key hlo, if_neg ht]

theorem map_fst_modify (v : V) : ∀ (l : List (K × V)) (r : ℕ),
    (l.modify (fun kv => (kv.1, v)) r).map Prod.fst = l.map Prod.fst
  | [], _ => by simp
  | _ :: _, 0 => by simp
  | _ :: l, r + 1 => by simp [map_fst_modify v l r]

theorem Ascending.modify (hA : Ascending key (l.map Prod.fst)) (v : V) (r : ℕ) :
    Ascending key ((l.modify (fun kv => (kv.1, v)) r).map Prod.fst) := by
  rwa [map_fst_modify]

/-- writing, at position `r`, a key of the same image as the stored one stores the new key under that image and
changes nothing else -/
theorem Ascending.find_modify_key {r : ℕ} {x : K × V} (hA : Ascending key (l.map Prod.fst)) (hx : l[r]? = some x)
    {k : K} (hk : key k = key x.1) (t : κ) :
    find key t (l.modify (fun kv => (k, kv.2)) r) = if t = key x.1 then some (k, x.2) else find key t l := by
  obtain ⟨hl, hlo, -⟩ := hA.split hx
  obtain ⟨hr, hxr⟩ := List.getElem?_eq_some_iff.1 hx
  rw [List.modify_eq_take_cons_drop hr, hxr, find_middle key (y := (k, x.2)) (by simpa only [hk] using hlo)]
  conv_rhs => rw [hl, find_middle key hlo]
  by_cases ht : t = key x.1 <;> simp [ht, hk]

/-- a key written at position `r` keeps the keys ascending exactly when it lies above every key before `r` and
below every key after it -/
theorem Ascending.modify_key_iff (hA : Ascending key (l.map Prod.fst)) {r : ℕ} (hr : r < l.length) (k : K) :
    Ascending key ((l.modify (fun kv => (k, kv.2)) r).map Prod.fst) ↔
      (∀ y ∈ l.take r, key y.1 < key k) ∧ ∀ y ∈ l.drop (r + 1), key k < key y.1 := by
  have hp : l.Pairwise fun a b => key a.1 < key b.1 := by simpa [Ascending, List.pairwise_map] using hA
  rw [← List.take_append_drop (r + 1) l, List.take_succ, List.getElem?_eq_getElem hr, Option.toList_some,
    List.pairwise_append, List.pairwise_append] at hp
  simp only [Ascending, List.pairwise_map, List.modify_eq_take_cons_drop hr, List.pairwise_append, List.pairwise_cons,
    List.mem_cons, forall_eq_or_imp]
  exact ⟨fun h => ⟨fun y hy => h.2.2 y hy |>.1, h.2.1.1⟩,
    fun h => ⟨hp.1.1, ⟨h.2, hp.2.1⟩, fun y hy => ⟨h.1 y hy, fun z hz => hp.2.2 y (List.mem_append_left _ hy) z hz⟩⟩⟩

/-- above every item of an ascending list is above its first -/
theorem forall_lt_iff_head? {α : Type} {f : α → κ} {t : κ} :
    ∀ {xs : List α}, xs.Pairwise (fun a b => f a < f b) → ((∀ y ∈ xs, t < f y) ↔ ∀ y ∈ xs.head?, t < f y)
  | [], _ => by simp
  | a :: _, hp => by
    simp only [List.mem_cons, forall_eq_or_imp, List.head?_cons, Option.mem_def, Option.some.injEq, forall_eq']
    exact ⟨And.left, fun h => ⟨h, fun y hy => h.trans (List.rel_of_pairwise_cons hp hy)⟩⟩

/-- below every item of an ascending list is below its last -/
theorem forall_gt_iff_getLast? {α : Type} {f : α → κ} {t : κ} {xs : List α} (hp : xs.Pairwise (fun a b => f a < f b)) :
    (∀ y ∈ xs, f y < t) ↔ ∀ y ∈ xs.getLast?, f y < t := by
  have h := forall_lt_iff_head? (f := fun a => OrderDual.toDual (f a)) (t := OrderDual.toDual t)
    (List.pairwise_reverse.2 hp)
  simpa only [List.mem_reverse, List.head?_reverse, OrderDual.toDual_lt_toDual] using h

/-- the same, with the neighbours alone: the entry before `r` and the entry after it -/
theorem Ascending.modify_key_iff_neighbours (hA : Ascending key (l.map Prod.fst)) {r : ℕ} (hr : r < l.length)
    (k : K) : Ascending key ((l.modify (fun kv => (k, kv.2)) r).map Prod.fst) ↔
      (∀ y ∈ (l.take r).getLast?, key y.1 < key k) ∧ ∀ y ∈ (l.drop (r + 1)).head?, key k < key y.1 := by
  have hp : l.Pairwise fun a b => key a.1 < key b.1 := by simpa [Ascending, List.pairwise_map] using hA
  rw [hA.modify_key_iff hr, forall_gt_iff_getLast? (hp.sublist (List.take_sublist _ _)),
    forall_lt_iff_head? (hp.sublist (List.drop_sublist _ _))]

/-- a key written at position `r` with the image of the key stored there keeps the keys ascending -/
theorem Ascending.modify_key (hA : Ascending key (l.map Prod.fst)) {r : ℕ} {x : K × V} (hx : l[r]? = some x) {k : K}
    (hk : key k = key x.1) : Ascending key ((l.modify (fun kv => (k, kv.2)) r).map Prod.fst) := by
  obtain ⟨hr, rfl⟩ := List.getElem?_eq_some_iff.1 hx
  obtain ⟨hl, hlo, hhi⟩ := hA.split hx
  have hp : (l.take r ++ l[r] :: l.drop (r + 1)).Pairwise fun a b => key a.1 < key b.1 := by
    rw [← hl]; simpa [Ascending, List.pairwise_map] using hA
  obtain ⟨-, hc, hab⟩ := List.pairwise_append.1 hp
  refine (hA.modify_key_iff hr k).2 ⟨fun y hy => hk ▸ hab y hy _ (List.mem_cons_self _ _), fun y hy => ?_⟩
  exact hk ▸ (List.pairwise_cons.1 hc).1 y hy

theorem Ascending.erase (hA : Ascending key (l.map Prod.fst)) (r : ℕ) :
    Ascending key ((l.take r ++ l.drop (r + 1)).map Prod.fst) := by
  rw [← List.eraseIdx_eq_take_drop_succ]
  exact List.Pairwise.sublist ((List.eraseIdx_sublist _ _).map _) hA

end Ascending

end BtreeMonstrousity
