import BtreeMonstrousity.Search

/-!
Point search against the in-order contents (`search_node`, `search_tree`).

A comparator `comp` fits a key sequence (`Bisects`) when it answers `Greater` on a prefix, `Equal` on at most
one key, and `Less` on the rest: `|k| compare(t, k)` on keys ascending in any total order does
(`Ascending.bisects`). `countGt` counts the `Greater` answers: the rank of the target.

Results:
- `scan_ofFn`, `findKeyIndex_ofFn`: the scan of a node stops at `start + countGt`, on the `Equal` key if there
  is one;
- `countGt_weave`, `weave_ne_eq`: through an internal node the rank splits into the pairs before the chosen
  edge plus the rank in the child, and an `Equal`-free node with an `Equal`-free child is `Equal`-free;
- `search_tree_spec`: `search_tree` finds the `Equal` key's own slot, or the leaf edge whose rank is the
  target's; inserting the target there keeps the keys ascending.
-/

namespace BtreeMonstrousity

open Node

variable {K V : Type}

/-- `comp` answers `Greater` on a prefix of `ks`, `Equal` on at most one key after it and `Less` on the rest -/
def Bisects (comp : K → Ordering) (ks : List K) : Prop :=
  ks.Pairwise fun a b => comp a = .gt ∨ comp b = .lt

/-- the number of keys `comp` answers `Greater` for -/
def countGt (comp : K → Ordering) (ks : List K) : ℕ :=
  ks.countP fun k => comp k = .gt

/-- keys strictly ascending in the order `key` sends them to -/
def Ascending {κ : Type} [LinearOrder κ] (key : K → κ) (ks : List K) : Prop :=
  ks.Pairwise fun a b => key a < key b

instance (comp : K → Ordering) (ks : List K) : Decidable (Bisects comp ks) :=
  inferInstanceAs (Decidable (ks.Pairwise _))

instance {κ : Type} [LinearOrder κ] (key : K → κ) (ks : List K) : Decidable (Ascending key ks) :=
  inferInstanceAs (Decidable (ks.Pairwise _))

/-! ## The comparator contract -/

section Contract

variable {comp : K → Ordering}

@[simp] theorem countGt_nil : countGt comp ([] : List K) = 0 := rfl

theorem countGt_cons (k : K) (ks : List K) :
    countGt comp (k :: ks) = countGt comp ks + if comp k = .gt then 1 else 0 := by
  simp [countGt, List.countP_cons]

theorem countGt_append (l m : List K) : countGt comp (l ++ m) = countGt comp l + countGt comp m :=
  List.countP_append ..

theorem countGt_eq_zero {ks : List K} (h : ∀ k ∈ ks, comp k = .lt) : countGt comp ks = 0 :=
  List.countP_eq_zero.2 fun k hk => by simp [h k hk]

theorem countGt_eq_length {ks : List K} (h : ∀ k ∈ ks, comp k = .gt) : countGt comp ks = ks.length :=
  List.countP_eq_length.2 fun k hk => by simp [h k hk]

theorem countGt_le_length (comp : K → Ordering) (ks : List K) : countGt comp ks ≤ ks.length :=
  List.countP_le_length _

theorem bisects_cons {k : K} {ks : List K} :
    Bisects comp (k :: ks) ↔ (∀ b ∈ ks, comp k = .gt ∨ comp b = .lt) ∧ Bisects comp ks :=
  List.pairwise_cons

theorem Bisects.sublist {l₁ l₂ : List K} (h : l₁.Sublist l₂) (hb : Bisects comp l₂) : Bisects comp l₁ :=
  List.Pairwise.sublist h hb

/-- after a key not answered `Greater`, every key is answered `Less` -/
theorem Bisects.lt_of_ne_gt {k : K} {ks : List K} (hb : Bisects comp (k :: ks)) (hk : comp k ≠ .gt) :
    ∀ b ∈ ks, comp b = .lt :=
  fun b hb' => ((bisects_cons.1 hb).1 b hb').resolve_left hk

/-- before a key not answered `Less`, every key is answered `Greater` -/
theorem Bisects.gt_of_ne_lt {l : List K} {k : K} {ks : List K} (hb : Bisects comp (l ++ k :: ks))
    (hk : comp k ≠ .lt) : ∀ a ∈ l, comp a = .gt :=
  fun a ha => ((List.pairwise_append.1 hb).2.2 a ha k (List.mem_cons_self _ _)).resolve_right hk

/-- the `Equal` key sits at the rank of the target -/
theorem Bisects.countGt_eq_of_getElem? :
    ∀ {ks : List K} {j : ℕ} {k : K}, Bisects comp ks → ks[j]? = some k → comp k = .eq → countGt comp ks = j
  | a :: ks, 0, k, hb, hk, he => by
    obtain rfl : a = k := by simpa using hk
    rw [countGt_cons, countGt_eq_zero (hb.lt_of_ne_gt (by simp [he])), he]; rfl
  | a :: ks, j + 1, k, hb, hk, he => by
    rw [List.getElem?_cons_succ] at hk
    have ha : comp a = .gt :=
      ((bisects_cons.1 hb).1 k (List.getElem?_mem hk)).resolve_right (by simp [he])
    rw [countGt_cons, ha, if_pos rfl, (bisects_cons.1 hb).2.countGt_eq_of_getElem? hk he]

/-- `|k| compare(t, key k)` fits every ascending key sequence -/
theorem Ascending.bisects {κ : Type} [LinearOrder κ] {key : K → κ} {ks : List K} (h : Ascending key ks)
    (t : κ) : Bisects (fun k => compare t (key k)) ks :=
  h.imp fun {a b} hab => by
    by_cases hta : key a < t
    · exact .inl (compare_gt_iff_gt.2 hta)
    · exact .inr (compare_lt_iff_lt.2 (lt_of_le_of_lt (not_lt.1 hta) hab))

end Contract

/-! ## The scan with a pure comparator -/

section Scan

variable (comp : K → Ordering)

theorem scan_ofFn :
    ∀ (ks : List K) (i : ℕ), Bisects comp ks →
      (Comparator.ofFn comp).scan () ks i = (ks.drop (countGt comp ks)).head?.map fun k =>
        if comp k = .eq then .kv (i + countGt comp ks) else .edge (i + countGt comp ks)
  | [], _, _ => rfl
  | k :: ks, i, hb => by
    have ih := scan_ofFn ks (i + 1) (bisects_cons.1 hb).2
    cases hk : comp k with
    | gt =>
      simp only [Comparator.scan, Comparator.ofFn, hk] at ih ⊢
      rw [ih, countGt_cons, hk, if_pos rfl, List.drop_succ_cons, Nat.add_right_comm i 1]; rfl
    | eq | lt =>
      simp only [Comparator.scan, Comparator.ofFn, hk]
      rw [countGt_cons, countGt_eq_zero (hb.lt_of_ne_gt (by simp [hk]))]
      simp [hk]

/-- `find_key_index(comp, s)` with a pure comparator fitting the keys from `s`: the first key not answered
`Greater`, as `KV` when it is `Equal` -/
theorem findKeyIndex_ofFn (n : Node K V) {s : ℕ} (hs : s ≤ n.len) (hb : Bisects comp (n.keys.drop s)) :
    findKeyIndex n (Comparator.ofFn comp) s =
      if (n.keys[s + countGt comp (n.keys.drop s)]?).map comp = some .eq
      then .kv (s + countGt comp (n.keys.drop s)) else .edge (s + countGt comp (n.keys.drop s)) := by
  have hg := countGt_le_length comp (n.keys.drop s)
  rw [List.length_drop, length_keys] at hg
  rw [findKeyIndex, show (Comparator.ofFn comp).state = () from rfl, scan_ofFn comp _ s hb, List.drop_drop,
    List.head?_drop]
  cases hk : n.keys[s + countGt comp (n.keys.drop s)]? with
  | none =>
    rw [List.getElem?_eq_none_iff, length_keys] at hk
    simp [show s + countGt comp (n.keys.drop s) = n.len by omega]
  | some k => by_cases he : comp k = .eq <;> simp [he]

/-- the scan from the start of a node fitting `comp`: a slot `g` whose key is `Equal`, or edge `g` with no
`Equal` key in the node, `g` the node's `Greater` count -/
theorem findKeyIndex_ofFn_zero (n : Node K V) (hb : Bisects comp n.keys) :
    (∃ kv, n.kvs[countGt comp n.keys]? = some kv ∧ comp kv.1 = .eq ∧
      findKeyIndex n (Comparator.ofFn comp) 0 = .kv (countGt comp n.keys)) ∨
    ((∀ kv ∈ n.kvs, comp kv.1 ≠ .eq) ∧ findKeyIndex n (Comparator.ofFn comp) 0 = .edge (countGt comp n.keys)) := by
  rw [findKeyIndex_ofFn comp n (Nat.zero_le _) hb]
  simp only [List.drop_zero, zero_add]
  split_ifs with he
  · obtain ⟨k, hk, hke⟩ := Option.map_eq_some'.1 he
    obtain ⟨kv, hkv, rfl⟩ : ∃ kv, n.kvs[countGt comp n.keys]? = some kv ∧ kv.1 = k := by
      simpa [Node.keys, List.getElem?_map] using hk
    exact .inl ⟨kv, hkv, hke, rfl⟩
  · refine .inr ⟨fun kv hkv hkve => he ?_, rfl⟩
    obtain ⟨j, hj, rfl⟩ := List.getElem_of_mem hkv
    have hj' : n.keys[j]? = some n.kvs[j].1 := by simp [Node.keys, List.getElem?_map, hj]
    rw [hb.countGt_eq_of_getElem? hj' hkve, hj']
    simp [hkve]

end Scan

/-! ## Through an internal node -/

section Weave

variable {comp : K → Ordering} (f : Node K V → List (K × V))

theorem sublist_weave_kvs :
    ∀ (es : List (Node K V)) (kvs : List (K × V)), es.length = kvs.length + 1 → kvs.Sublist (weave f es kvs)
  | [_], [], _ => List.nil_sublist _
  | e :: es, kv :: kvs, hl => by
    rw [weave]
    exact ((sublist_weave_kvs es kvs (by simpa using hl)).cons₂ kv).trans (List.sublist_append_right _ _)
  | [], _, hl | _ :: _ :: _, [], hl => by simp at hl

theorem sublist_weave_edge :
    ∀ (es : List (Node K V)) (kvs : List (K × V)) (i : ℕ), es.length = kvs.length + 1 → i ≤ kvs.length →
      (f (es.getD i Node.empty)).Sublist (weave f es kvs)
  | [e], [], 0, _, _ => by simp [weave]
  | e :: es, kv :: kvs, 0, _, _ => by simp [weave]
  | e :: es, kv :: kvs, i + 1, hl, hi => by
    rw [weave, List.getD_cons_succ]
    exact ((sublist_weave_edge es kvs i (by simpa using hl) (by simpa using hi)).cons kv).trans
      (List.sublist_append_right _ _)
  | [], _, _, hl, _ | _ :: _ :: _, [], _, hl, _ => by simp at hl
  | [_], [], _ + 1, _, hi => by simp at hi

/-- through an internal node the rank of the target is the number of pairs before the edge the scan picks, plus
its rank in that edge's subtree -/
theorem countGt_weave :
    ∀ (es : List (Node K V)) (kvs : List (K × V)), es.length = kvs.length + 1 →
      Bisects comp ((weave f es kvs).map Prod.fst) →
      countGt comp ((weave f es kvs).map Prod.fst) =
        offset f es (countGt comp (kvs.map Prod.fst)) +
          countGt comp ((f (es.getD (countGt comp (kvs.map Prod.fst)) Node.empty)).map Prod.fst)
  | [e], [], _, _ => by simp [weave]
  | e :: es, kv :: kvs, hl, hb => by
    have hl' : es.length = kvs.length + 1 := by simpa using hl
    simp only [weave, List.map_append, List.map_cons] at hb ⊢
    have hrest : Bisects comp ((weave f es kvs).map Prod.fst) := (List.pairwise_append.1 hb).2.1.of_cons
    by_cases hk : comp kv.1 = .gt
    · rw [countGt_append, countGt_eq_length (hb.gt_of_ne_lt (by simp [hk])), countGt_cons,
        countGt_weave es kvs hl' hrest, countGt_cons, hk, if_pos rfl, offset_cons_succ, List.getD_cons_succ,
        List.length_map]
      omega
    · have hlt := (List.pairwise_append.1 hb).2.1
      have hkvs : countGt comp (kvs.map Prod.fst) = 0 := countGt_eq_zero fun k hk' =>
        Bisects.lt_of_ne_gt hlt hk k (((sublist_weave_kvs f es kvs hl').map Prod.fst).subset hk')
      rw [countGt_append, countGt_cons, countGt_eq_zero (Bisects.lt_of_ne_gt hlt hk), countGt_cons, hkvs,
        if_neg hk]
      simp
  | [], _, hl, _ | _ :: _ :: _, [], hl, _ => by simp at hl

/-- an internal node with no `Equal` key, whose picked edge has none either, has none at all -/
theorem weave_ne_eq :
    ∀ (es : List (Node K V)) (kvs : List (K × V)), es.length = kvs.length + 1 →
      Bisects comp ((weave f es kvs).map Prod.fst) → (∀ kv ∈ kvs, comp kv.1 ≠ .eq) →
      (∀ x ∈ f (es.getD (countGt comp (kvs.map Prod.fst)) Node.empty), comp x.1 ≠ .eq) →
      ∀ x ∈ weave f es kvs, comp x.1 ≠ .eq
  | [e], [], _, _, _, hc => by simpa [weave] using hc
  | e :: es, kv :: kvs, hl, hb, hkvs, hc => by
    have hl' : es.length = kvs.length + 1 := by simpa using hl
    simp only [weave, List.map_append, List.map_cons] at hb
    have hlt := (List.pairwise_append.1 hb).2.1
    intro x hx
    simp only [weave, List.mem_append, List.mem_cons] at hx
    by_cases hk : comp kv.1 = .gt
    · rw [List.map_cons, countGt_cons, hk, if_pos rfl, List.getD_cons_succ] at hc
      rcases hx with hx | rfl | hx
      · simp [hb.gt_of_ne_lt (by simp [hk]) x.1 (List.mem_map_of_mem _ hx)]
      · exact hkvs _ (List.mem_cons_self _ _)
      · exact weave_ne_eq es kvs hl' hlt.of_cons (fun kv' h => hkvs kv' (List.mem_cons_of_mem _ h)) hc x hx
    · have hkvs0 : countGt comp ((kv :: kvs).map Prod.fst) = 0 := by
        rw [List.map_cons, countGt_cons, if_neg hk, countGt_eq_zero fun k hk' =>
          Bisects.lt_of_ne_gt hlt hk k (((sublist_weave_kvs f es kvs hl').map Prod.fst).subset hk')]
      rw [hkvs0] at hc
      rcases hx with hx | rfl | hx
      · exact hc x hx
      · exact hkvs _ (List.mem_cons_self _ _)
      · simp [Bisects.lt_of_ne_gt hlt hk x.1 (List.mem_map_of_mem _ hx)]
  | [], _, hl, _, _, _ | _ :: _ :: _, [], hl, _, _, _ => by simp at hl

end Weave

/-! ## `search_tree` -/

section SearchTree

variable (comp : K → Ordering)

theorem searchTree_ofFn :
    ∀ (h : ℕ) (n : Node K V), Shaped h n → Bisects comp ((inorder h n).map Prod.fst) →
      match searchTree (Comparator.ofFn comp) h n with
      | .found hd => IsKV h n hd ∧ rank h n hd.path hd.idx = countGt comp ((inorder h n).map Prod.fst) ∧
          ∃ kv, (nodeAt n hd.path).kvs[hd.idx]? = some kv ∧ comp kv.1 = .eq
      | .goDown hd => IsLeafEdge h n hd ∧ rank h n hd.path hd.idx = countGt comp ((inorder h n).map Prod.fst) ∧
          ∀ kv ∈ inorder h n, comp kv.1 ≠ .eq
  | 0, n, _, hb => by
    rcases findKeyIndex_ofFn_zero comp n hb with ⟨kv, hkv, he, hk⟩ | ⟨hne, hk⟩
    · simp only [searchTree, searchNode, hk]
      exact ⟨⟨trivial, (List.getElem?_eq_some_iff.1 hkv).1⟩, rfl, kv, hkv, he⟩
    · simp only [searchTree, searchNode, hk]
      exact ⟨⟨trivial, rfl, by simpa using countGt_le_length comp n.keys⟩, rfl, hne⟩
  | h + 1, n, hs, hb => by
    have hl : n.edges.length = n.kvs.length + 1 := hs.1
    have hbk : Bisects comp n.keys := hb.sublist ((sublist_weave_kvs _ _ _ hl).map _)
    rcases findKeyIndex_ofFn_zero comp n hbk with ⟨kv, hkv, he, hk⟩ | ⟨hne, hk⟩
    · simp only [searchTree, searchNode, hk]
      have hg : countGt comp n.keys < n.len := (List.getElem?_eq_some_iff.1 hkv).1
      have hr := getElem?_inorder_rank (h + 1) n [] _ hs trivial hg
      rw [nodeAt_nil, hkv] at hr
      refine ⟨⟨trivial, hg⟩, (hb.countGt_eq_of_getElem? (by simp [List.getElem?_map, hr]) he).symm, kv, hkv, he⟩
    · simp only [searchTree, searchNode, hk]
      have hg : countGt comp n.keys ≤ n.len := by simpa using countGt_le_length comp n.keys
      have ih := searchTree_ofFn h (n.edge _) (hs.edge hg)
        (hb.sublist ((sublist_weave_edge (inorder h) n.edges n.kvs _ hl hg).map _))
      have hcount := countGt_weave (inorder h) n.edges n.kvs hl hb
      rcases hr : searchTree (Comparator.ofFn comp) h (n.edge (countGt comp n.keys)) with hd | hd <;>
        rw [hr] at ih <;> simp only [SearchResult.under, Handle.under]
      · obtain ⟨⟨hp, hi⟩, hrk, kv, hkv, he⟩ := ih
        exact ⟨⟨⟨hg, hp⟩, hi⟩, by rw [rank, hrk, inorder_succ, hcount]; rfl, kv, hkv, he⟩
      · obtain ⟨⟨hp, hlen, hi⟩, hrk, hne'⟩ := ih
        exact ⟨⟨⟨hg, hp⟩, by simp [hlen], hi⟩, by rw [rank, hrk, inorder_succ, hcount]; rfl,
          weave_ne_eq (inorder h) n.edges n.kvs hl hb hne hne'⟩

theorem Bisects.take_countGt : ∀ {ks : List K}, Bisects comp ks → ∀ a ∈ ks.take (countGt comp ks), comp a = .gt
  | [], _ => by simp
  | k :: ks, hb => by
    by_cases hk : comp k = .gt
    · rw [countGt_cons, if_pos hk, List.take_succ_cons]
      simpa [hk] using (bisects_cons.1 hb).2.take_countGt
    · rw [countGt_cons, if_neg hk, countGt_eq_zero (hb.lt_of_ne_gt hk)]
      simp

theorem Bisects.drop_countGt : ∀ {ks : List K}, Bisects comp ks → ∀ b ∈ ks.drop (countGt comp ks), comp b ≠ .gt
  | [], _ => by simp
  | k :: ks, hb => by
    by_cases hk : comp k = .gt
    · rw [countGt_cons, if_pos hk, List.drop_succ_cons]
      exact (bisects_cons.1 hb).2.drop_countGt
    · rw [countGt_cons, if_neg hk, countGt_eq_zero (hb.lt_of_ne_gt hk)]
      intro b hb'
      rcases List.mem_cons.1 hb' with rfl | hb'
      · exact hk
      · simp [hb.lt_of_ne_gt hk b hb']

/-- a target absent from ascending keys, put at its rank, keeps them ascending -/
theorem Ascending.insert_countGt {κ : Type} [LinearOrder κ] {key : K → κ} {ks : List K} (h : Ascending key ks)
    (t : K) (hne : ∀ k ∈ ks, compare (key t) (key k) ≠ .eq) :
    Ascending key (ks.take (countGt (fun k => compare (key t) (key k)) ks) ++
      t :: ks.drop (countGt (fun k => compare (key t) (key k)) ks)) := by
  have hb := h.bisects (key t)
  have hlo : ∀ a ∈ ks.take (countGt _ ks), key a < key t := fun a ha =>
    compare_gt_iff_gt.1 (hb.take_countGt _ a ha)
  have hhi : ∀ b ∈ ks.drop (countGt _ ks), key t < key b := fun b hb' => by
    have h1 := hb.drop_countGt _ b hb'
    have h2 := hne b (List.mem_of_mem_drop hb')
    exact compare_lt_iff_lt.1 (by cases hc : compare (key t) (key b) <;> simp_all)
  refine List.pairwise_append.2 ⟨h.sublist (List.take_sublist _ _),
    List.pairwise_cons.2 ⟨hhi, h.sublist (List.drop_sublist _ _)⟩, fun a ha b hb' => ?_⟩
  rcases List.mem_cons.1 hb' with rfl | hb'
  · exact hlo a ha
  · exact (hlo a ha).trans (hhi b hb')

end SearchTree

/-- **Point search.** On every shaped tree (any height) and every pure comparator `comp` fitting the in-order
keys (`Greater` on a prefix, at most one `Equal`, `Less` after; `|k| compare(t, k)` on ascending keys, for a
target `t` of any type the comparator bridges): `search_tree` returns `Found` exactly when some key is `Equal`,
with a handle to that key's own slot, in a leaf or an internal node, at the target's rank; otherwise `GoDown`
with a leaf edge whose rank is the number of `Greater` keys, and a target key `t` put there keeps the keys
ascending. -/
theorem search_tree_spec {κ : Type} [LinearOrder κ] (key : K → κ) (comp : K → Ordering) (h : ℕ) (n : Node K V)
    (hs : Shaped h n) (hb : Bisects comp ((inorder h n).map Prod.fst)) :
    match searchTree (Comparator.ofFn comp) h n with
    | .found hd => IsKV h n hd ∧ rank h n hd.path hd.idx = countGt comp ((inorder h n).map Prod.fst) ∧
        ∃ kv, (nodeAt n hd.path).kvs[hd.idx]? = some kv ∧ (inorder h n)[rank h n hd.path hd.idx]? = some kv ∧
          comp kv.1 = .eq
    | .goDown hd => IsLeafEdge h n hd ∧ rank h n hd.path hd.idx = countGt comp ((inorder h n).map Prod.fst) ∧
        (∀ kv ∈ inorder h n, comp kv.1 ≠ .eq) ∧
        ∀ (t : K) (v : V), comp = (fun k => compare (key t) (key k)) → Ascending key ((inorder h n).map Prod.fst) →
          Ascending key (((inorder h n).take (rank h n hd.path hd.idx) ++
            (t, v) :: (inorder h n).drop (rank h n hd.path hd.idx)).map Prod.fst) := by
  have := searchTree_ofFn comp h n hs hb
  split at this
  · obtain ⟨hkv, hr, kv, hat, he⟩ := this
    exact ⟨hkv, hr, kv, hat, by rw [getElem?_inorder_rank h n _ _ hs hkv.1 hkv.2, hat], he⟩
  · obtain ⟨hle, hr, hne⟩ := this
    refine ⟨hle, hr, hne, fun t v hc ha => ?_⟩
    subst hc
    rw [hr, List.map_append, List.map_cons, List.map_take, List.map_drop]
    exact ha.insert_countGt t fun k hk => by
      obtain ⟨kv, hkv, rfl⟩ := List.mem_map.1 hk
      exact hne kv hkv

/-- a tree of height 1: keys `1 | 2 | 3`, the `2` in the root -/
def twoLevel : Node ℕ ℕ := ⟨[(2, 0)], [⟨[(1, 0)], []⟩, ⟨[(3, 0)], []⟩]⟩

/-- the root key of `twoLevel` is found in the root, at rank 1 -/
theorem search_tree_spec_root_key :
    Shaped 1 twoLevel ∧ Bisects (compare 2) ((inorder 1 twoLevel).map Prod.fst) ∧
      match searchTree (Comparator.ofFn (compare 2)) 1 twoLevel with
      | .found hd => IsKV 1 twoLevel hd ∧
          rank 1 twoLevel hd.path hd.idx = countGt (compare 2) ((inorder 1 twoLevel).map Prod.fst) ∧
          ∃ kv, (nodeAt twoLevel hd.path).kvs[hd.idx]? = some kv ∧
            (inorder 1 twoLevel)[rank 1 twoLevel hd.path hd.idx]? = some kv ∧ compare 2 kv.1 = .eq
      | .goDown hd => IsLeafEdge 1 twoLevel hd ∧
          rank 1 twoLevel hd.path hd.idx = countGt (compare 2) ((inorder 1 twoLevel).map Prod.fst) ∧
          (∀ kv ∈ inorder 1 twoLevel, compare 2 kv.1 ≠ .eq) ∧
          ∀ (t v : ℕ), compare 2 = (fun k => compare (id t) (id k)) →
            Ascending id ((inorder 1 twoLevel).map Prod.fst) →
            Ascending id (((inorder 1 twoLevel).take (rank 1 twoLevel hd.path hd.idx) ++
              (t, v) :: (inorder 1 twoLevel).drop (rank 1 twoLevel hd.path hd.idx)).map Prod.fst) :=
  have hs : Shaped 1 twoLevel := by simp [Shaped, twoLevel, Node.len]
  have hb : Bisects (compare 2) ((inorder 1 twoLevel).map Prod.fst) := by decide
  ⟨hs, hb, search_tree_spec id (compare 2) 1 _ hs hb⟩

end BtreeMonstrousity
