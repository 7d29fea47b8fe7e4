import BtreeMonstrousity.PointSearch
import BtreeMonstrousity.Navigate

/-!
Range search against the in-order contents: `search_tree_for_bifurcation`, `find_lower_bound_edge` and
`find_upper_bound_edge`, the descent `range_search` makes below the bifurcation, and `lower_bound` / `upper_bound`
of a node, the same descent from the root (`navigate.rs`, absent: modelled from the spec, §4.4).

A range has two ends, each a target `t` and a `SearchBound`, searched with `|k| compare(t, k)`
(`Comparator.ofTarget`). `LowerOK` and `UpperOK` say which keys an end admits, `InRange` both. On ascending keys
the keys the lower end rejects form a prefix (`belowCount` of them), and so do the keys the lower end rejects or
the upper end admits (`throughCount`); the keys in range are the positions between the two counts
(`inRange_iff`).

- `findLowerBoundIndex_cuts`, `findUpperBoundIndex_cuts`: in a node a bound's edge is the count of keys on the
  near side of its end (counted from `start_index` for the upper one), and the bound handed to the child admits
  what the end admits between the edge's neighbouring keys;
- `countP_inorder_succ`: through an internal node such a count is the pairs before that edge plus the count in
  the edge's subtree, where the child's bound may stand in for the node's;
- `descend_spec`: from an edge, `find_lower_bound_edge` or `find_upper_bound_edge` at every level below reaches
  the leaf edge at the count;
- `lowerBound_upperBound_rank`: from the root, for every kind of bound, the descent with `find_lower_bound_edge`
  reaches the leaf edge after the keys the bound rejects and the one with `find_upper_bound_edge` the leaf edge
  after the keys it admits; `AllIncluded` and `AllExcluded` never call the comparator;
- `searchTreeForBifurcation_stops`: every level the search passes keeps both counts, so it stops at a node whose
  bounds admit on its subtree what the range admits, or fails with the two counts equal;
- `searchTreeForBifurcation_agrees`: comparators that agree wherever the bounds call them (`Agrees`) give the same
  search and the same descents; `AllIncluded` and `AllExcluded` call none;
- `bifurcation_brackets_range`: with any comparator under an `AllIncluded` or `AllExcluded` end, `Err` exactly when
  no key is in range, at the leaf edge past the keys below it; otherwise the node's key at the lower edge is in
  range, and the two descents reach the leaf edges that bracket exactly the keys in range, inside the node's subtree
  between its two edges.
Witness: `bifurcation_brackets_range_twoLevel`, a range from the start, its lower end searched with a comparator
that answers `Less` to every key.
-/

namespace BtreeMonstrousity

open Node

variable {K V κ : Type} [LinearOrder κ]

/-! ## Range ends -/

/-- the keys the lower end of a range admits: at or above its target, above it, all, none -/
def LowerOK (t : κ) : SearchBound → κ → Prop
  | .included, x => t ≤ x
  | .excluded, x => t < x
  | .allIncluded, _ => True
  | .allExcluded, _ => False

/-- the keys the upper end of a range admits: at or below its target, below it, all, none -/
def UpperOK (t : κ) : SearchBound → κ → Prop
  | .included, x => x ≤ t
  | .excluded, x => x < t
  | .allIncluded, _ => True
  | .allExcluded, _ => False

/-- a key in the range from `(lo, lb)` to `(hi, ub)` -/
def InRange (lo hi : κ) (lb ub : SearchBound) (x : κ) : Prop := LowerOK lo lb x ∧ UpperOK hi ub x

instance (t : κ) (b : SearchBound) : DecidablePred (LowerOK t b) := fun x =>
  match b with
  | .included => inferInstanceAs (Decidable (t ≤ x))
  | .excluded => inferInstanceAs (Decidable (t < x))
  | .allIncluded => inferInstanceAs (Decidable True)
  | .allExcluded => inferInstanceAs (Decidable False)

instance (t : κ) (b : SearchBound) : DecidablePred (UpperOK t b) := fun x =>
  match b with
  | .included => inferInstanceAs (Decidable (x ≤ t))
  | .excluded => inferInstanceAs (Decidable (x < t))
  | .allIncluded => inferInstanceAs (Decidable True)
  | .allExcluded => inferInstanceAs (Decidable False)

instance (lo hi : κ) (lb ub : SearchBound) : DecidablePred (InRange lo hi lb ub) := fun x =>
  inferInstanceAs (Decidable (LowerOK lo lb x ∧ UpperOK hi ub x))

theorem LowerOK.mono {t x y : κ} {b : SearchBound} (h : LowerOK t b x) (hxy : x ≤ y) : LowerOK t b y := by
  cases b with
  | included => exact le_trans (α := κ) h hxy
  | excluded => exact lt_of_lt_of_le (α := κ) h hxy
  | allIncluded => trivial
  | allExcluded => exact h

theorem UpperOK.anti {t x y : κ} {b : SearchBound} (h : UpperOK t b y) (hxy : x ≤ y) : UpperOK t b x := by
  cases b with
  | included => exact le_trans (α := κ) hxy h
  | excluded => exact lt_of_le_of_lt (α := κ) hxy h
  | allIncluded => trivial
  | allExcluded => exact h

/-- `|k| compare(t, k)`: the comparator of an `Included` or `Excluded` end with target `t` -/
def Comparator.ofTarget (key : K → κ) (t : κ) : Comparator K := Comparator.ofFn fun k => compare t (key k)

/-! ## Prefixes -/

section Downward

variable {α : Type} {p : α → Bool}

/-- `p` holds on a prefix of the list and nowhere after it -/
def Downward (p : α → Bool) (l : List α) : Prop := l.Pairwise fun a b => p b → p a

/-- the element at `i` satisfies `p` exactly when `i` is below `p`'s count -/
theorem Downward.getElem_iff : ∀ {l : List α}, Downward p l → ∀ {i : ℕ} (hi : i < l.length),
    p l[i] ↔ i < l.countP p
  | a :: l, hd, i, hi => by
    have hafter := (List.pairwise_cons.1 hd).1
    by_cases ha : p a
    · rw [List.countP_cons_of_pos _ _ ha]
      cases i with
      | zero => simpa using ha
      | succ i => simpa using Downward.getElem_iff (List.pairwise_cons.1 hd).2 (Nat.lt_of_succ_lt_succ hi)
    · rw [List.countP_cons_of_neg _ _ ha, List.countP_eq_zero.2 fun b hb hpb => ha (hafter b hb hpb)]
      cases i with
      | zero => simpa using ha
      | succ i => simpa using fun h => ha (hafter _ (List.getElem_mem _) h)

theorem Downward.take_countP {l : List α} (hd : Downward p l) : ∀ a ∈ l.take (l.countP p), p a := by
  intro a ha
  obtain ⟨i, hi, rfl⟩ := List.mem_take_iff_getElem.1 ha
  exact (hd.getElem_iff _).2 (by omega)

theorem Downward.drop_countP {l : List α} (hd : Downward p l) : ∀ b ∈ l.drop (l.countP p), ¬ p b := by
  intro b hb
  obtain ⟨i, hi, rfl⟩ := List.mem_drop_iff_getElem.1 hb
  intro h
  have := (hd.getElem_iff _).1 h
  omega

/-- the elements `p` holds on are the prefix of `p`'s count -/
theorem Downward.filter_eq_take {l : List α} (hd : Downward p l) : l.filter p = l.take (l.countP p) := by
  conv_lhs => rw [← List.take_append_drop (l.countP p) l]
  rw [List.filter_append, List.filter_eq_self.2 hd.take_countP, List.filter_eq_nil_iff.2 hd.drop_countP,
    List.append_nil]

/-- the elements `p` fails on are the rest after `p`'s count -/
theorem Downward.filter_not_eq_drop {l : List α} (hd : Downward p l) :
    l.filter (fun a => !p a) = l.drop (l.countP p) := by
  conv_lhs => rw [← List.take_append_drop (l.countP p) l]
  rw [List.filter_append, List.filter_eq_nil_iff.2 fun a ha => by simpa using hd.take_countP a ha,
    List.filter_eq_self.2 fun a ha => by simpa using hd.drop_countP a ha, List.nil_append]

/-- a count is the length of a prefix where `p` holds followed by a rest where it fails -/
theorem countP_eq_of_cut {l : List α} {j : ℕ} (hj : j ≤ l.length) (ht : ∀ a ∈ l.take j, p a)
    (hd : ∀ b ∈ l.drop j, ¬ p b) : l.countP p = j := by
  rw [← List.take_append_drop j l, List.countP_append, List.countP_eq_length.2 ht, List.countP_eq_zero.2 hd,
    List.length_take]
  omega

theorem mem_take_drop_of_getElem? {l : List α} {i : ℕ} {x : α} (h : l[i]? = some x) :
    x ∈ l.take (i + 1) ∧ x ∈ l.drop i := by
  obtain ⟨hi, rfl⟩ := List.getElem?_eq_some_iff.1 h
  exact ⟨List.mem_take_iff_getElem.2 ⟨i, by simp [hi], rfl⟩, List.mem_drop_iff_getElem.2 ⟨0, by simpa, rfl⟩⟩

end Downward

section Ordered

variable (key : K → κ)

/-- on ascending keys, a predicate that passes from a key to every smaller one holds on a prefix -/
theorem Ascending.downward {ks : List K} (hA : Ascending key ks) {p : K → Bool}
    (hp : ∀ {a b : K}, key a < key b → p b → p a) : Downward p ks :=
  hA.imp hp

theorem Ascending.downward_below {ks : List K} (hA : Ascending key ks) (lo : κ) (lb : SearchBound) :
    Downward (fun k => ¬ LowerOK lo lb (key k)) ks :=
  hA.downward key fun hab hb => by
    simp only [decide_eq_true_eq] at hb ⊢
    exact fun ha => hb (ha.mono hab.le)

theorem Ascending.downward_through {ks : List K} (hA : Ascending key ks) (lo hi : κ) (lb ub : SearchBound) :
    Downward (fun k => ¬ LowerOK lo lb (key k) ∨ UpperOK hi ub (key k)) ks :=
  hA.downward key fun hab hb => by
    simp only [decide_eq_true_eq] at hb ⊢
    exact hb.imp (fun h ha => h (ha.mono hab.le)) fun h => h.anti hab.le

/-- the node's own keys of an ascending subtree ascend -/
theorem Ascending.keys_of_inorder {h : ℕ} {n : Node K V} (hs : Shaped h n)
    (hA : Ascending key ((inorder h n).map Prod.fst)) : Ascending key n.keys := by
  cases h with
  | zero => exact hA
  | succ h => exact hA.sublist ((sublist_weave_kvs _ _ _ hs.1).map _)

theorem Ascending.edge {h : ℕ} {n : Node K V} (hs : Shaped (h + 1) n)
    (hA : Ascending key ((inorder (h + 1) n).map Prod.fst)) {j : ℕ} (hj : j ≤ n.len) :
    Ascending key ((inorder h (n.edge j)).map Prod.fst) :=
  hA.sublist ((sublist_weave_edge _ _ _ j hs.1 hj).map _)

end Ordered

/-! ## One node -/

section Node

variable (key : K → κ) (t : κ)

/-- `x` lies between the keys of `ks` before index `i` and those from it -/
def Between (ks : List K) (i : ℕ) (x : κ) : Prop := (∀ k ∈ ks.take i, key k < x) ∧ ∀ k ∈ ks.drop i, x < key k

/-- what a bound's scan of a node from `start_index` `s` gives, for `P b` the keys on the near side of the end
with bound `b`: the edge past the keys from `s` on the near side, and a bound for the child that agrees with `b`
between the edge's neighbouring keys -/
structure Cuts (P : SearchBound → κ → Prop) [∀ b, DecidablePred (P b)] (ks : List K) (s : ℕ) (b : SearchBound)
    (r : ℕ × SearchBound) : Prop where
  idx_eq : r.1 = s + (ks.drop s).countP fun k => P b (key k)
  agree : ∀ x, Between key ks r.1 x → (P r.2 x ↔ P b x)

theorem countGt_ofTarget (ks : List K) : countGt (fun k => compare t (key k)) ks = ks.countP fun k => key k < t :=
  List.countP_congr fun k _ => by simp [compare_gt_iff_gt]

/-- `find_key_index(|k| compare(t, k), s)` on ascending keys: past the keys from `s` below `t`, on a `KV` when
the next key is `t` -/
theorem findKeyIndex_ofTarget (n : Node K V) {s : ℕ} (hs : s ≤ n.len) (hA : Ascending key n.keys) :
    (∃ k, n.keys[s + (n.keys.drop s).countP fun k => key k < t]? = some k ∧ key k = t ∧
      findKeyIndex n (Comparator.ofTarget key t) s = .kv (s + (n.keys.drop s).countP fun k => key k < t)) ∨
    ((∀ k ∈ n.keys.drop s, key k ≠ t) ∧
      findKeyIndex n (Comparator.ofTarget key t) s = .edge (s + (n.keys.drop s).countP fun k => key k < t)) := by
  have hb := (show Ascending key (n.keys.drop s) from hA.sublist (List.drop_sublist s _)).bisects t
  rw [Comparator.ofTarget, findKeyIndex_ofFn _ n hs hb, countGt_ofTarget]
  split_ifs with he
  · obtain ⟨k, hk, hkt⟩ := Option.map_eq_some'.1 he
    exact .inl ⟨k, hk, (compare_eq_iff_eq.1 hkt).symm, rfl⟩
  · refine .inr ⟨fun k hk hkt => he ?_, rfl⟩
    obtain ⟨j, hj⟩ := List.mem_iff_getElem?.1 hk
    have hc := hb.countGt_eq_of_getElem? hj (compare_eq_iff_eq.2 hkt.symm)
    rw [countGt_ofTarget] at hc
    rw [hc, ← List.getElem?_drop, hj]
    simp [hkt, compare_eq_iff_eq]

/-- the keys at or below `t`: those below it and, when it is `t`, the next one -/
theorem countP_le_of_getElem? {ks : List K} (hA : Ascending key ks) {k : K}
    (hk : ks[ks.countP fun k => key k < t]? = some k) (hkt : key k = t) :
    (ks.countP fun k => key k ≤ t) = (ks.countP fun k => key k < t) + 1 := by
  have hd : Downward (fun k => key k < t) ks := hA.downward key fun hab hb => by
    simp only [decide_eq_true_eq] at hb ⊢
    exact hab.trans hb
  obtain ⟨hi, rfl⟩ := List.getElem?_eq_some_iff.1 hk
  have hrest := List.pairwise_cons.1 ((List.drop_eq_getElem_cons hi) ▸ hA.sublist (List.drop_sublist _ _))
  refine countP_eq_of_cut (by omega) ?_ fun b hb => ?_
  · rw [List.take_succ, List.getElem?_eq_getElem hi]
    intro a ha
    rcases List.mem_append.1 ha with ha | ha
    · simpa using le_of_lt (by simpa using hd.take_countP a ha)
    · simp [List.mem_singleton.1 (by simpa using ha), hkt]
  · simpa [hkt] using hrest.1 b hb

theorem countP_le_of_ne {ks : List K} (hne : ∀ k ∈ ks, key k ≠ t) :
    (ks.countP fun k => key k ≤ t) = ks.countP fun k => key k < t :=
  List.countP_congr fun k hk => by simp [le_iff_lt_or_eq, hne k hk]

/-- **`find_lower_bound_index`.** On ascending keys, the lower edge is past the keys the end rejects; an end at a
key hands `AllExcluded` (`Included`) or `AllIncluded` (`Excluded`) to the child, which agrees with it between
the edge's neighbours -/
theorem findLowerBoundIndex_cuts (n : Node K V) (hA : Ascending key n.keys) (b : SearchBound) :
    Cuts key (fun b x => ¬ LowerOK t b x) n.keys 0 b (findLowerBoundIndex n (Comparator.ofTarget key t) b) := by
  have hf := findKeyIndex_ofTarget key t n (Nat.zero_le _) hA
  simp only [List.drop_zero, zero_add] at hf
  cases b with
  | included =>
    rcases hf with ⟨k, hk, hkt, hf⟩ | ⟨-, hf⟩ <;> simp only [findLowerBoundIndex, hf]
    · exact ⟨by simp [LowerOK], fun x hx => by simpa [LowerOK, ← hkt] using hx.2 k (mem_take_drop_of_getElem? hk).2⟩
    · exact ⟨by simp [LowerOK], fun _ _ => Iff.rfl⟩
  | excluded =>
    rcases hf with ⟨k, hk, hkt, hf⟩ | ⟨hne, hf⟩ <;> simp only [findLowerBoundIndex, hf]
    · exact ⟨by simp [LowerOK, countP_le_of_getElem? key t hA hk hkt],
        fun x hx => by simpa [LowerOK, ← hkt] using hx.1 k (mem_take_drop_of_getElem? hk).1⟩
    · exact ⟨by simp [LowerOK, countP_le_of_ne key t hne], fun _ _ => Iff.rfl⟩
  | allIncluded => exact ⟨by simp [findLowerBoundIndex, LowerOK], fun _ _ => Iff.rfl⟩
  | allExcluded => exact ⟨by simp [findLowerBoundIndex, LowerOK, Node.len], fun _ _ => Iff.rfl⟩

/-- **`find_upper_bound_index`.** On ascending keys, from `start_index` `s` the upper edge is past the keys from
`s` the end admits; an end at a key hands `AllExcluded` (`Included`) or `AllIncluded` (`Excluded`) to the child,
which agrees with it between the edge's neighbours -/
theorem findUpperBoundIndex_cuts (n : Node K V) (hA : Ascending key n.keys) (b : SearchBound) {s : ℕ}
    (hs : s ≤ n.len) :
    Cuts key (fun b x => UpperOK t b x) n.keys s b (findUpperBoundIndex n (Comparator.ofTarget key t) b s) := by
  have hf := findKeyIndex_ofTarget key t n hs hA
  cases b with
  | included =>
    rcases hf with ⟨k, hk, hkt, hf⟩ | ⟨hne, hf⟩ <;> simp only [findUpperBoundIndex, hf]
    · have hk' : (n.keys.drop s)[(n.keys.drop s).countP fun k => key k < t]? = some k := by
        rw [List.getElem?_drop]; exact hk
      exact ⟨by simp [UpperOK, countP_le_of_getElem? key t (hA.sublist (List.drop_sublist s _)) hk' hkt,
        add_assoc], fun x hx => by simpa [UpperOK, ← hkt] using hx.1 k (mem_take_drop_of_getElem? hk).1⟩
    · exact ⟨by simp [UpperOK, countP_le_of_ne key t hne], fun _ _ => Iff.rfl⟩
  | excluded =>
    rcases hf with ⟨k, hk, hkt, hf⟩ | ⟨-, hf⟩ <;> simp only [findUpperBoundIndex, hf]
    · exact ⟨by simp [UpperOK], fun x hx => by simpa [UpperOK, ← hkt] using hx.2 k (mem_take_drop_of_getElem? hk).2⟩
    · exact ⟨by simp [UpperOK], fun _ _ => Iff.rfl⟩
  | allIncluded => exact ⟨by simp [findUpperBoundIndex, UpperOK]; omega, fun _ _ => Iff.rfl⟩
  | allExcluded => exact ⟨by simp [findUpperBoundIndex, UpperOK], fun _ _ => Iff.rfl⟩

end Node

/-! ## Through an internal node -/

section Weave

variable (f : Node K V → List (K × V))

/-- through an internal node, a count of keys on a prefix is the pairs before the edge its count on the node's
keys picks, plus its count in that edge's subtree -/
theorem countP_weave (p : K → Bool) :
    ∀ (es : List (Node K V)) (kvs : List (K × V)), es.length = kvs.length + 1 →
      Downward p ((weave f es kvs).map Prod.fst) →
      ((weave f es kvs).map Prod.fst).countP p =
        offset f es ((kvs.map Prod.fst).countP p) +
          ((f (es.getD ((kvs.map Prod.fst).countP p) Node.empty)).map Prod.fst).countP p
  | [e], [], _, _ => by simp [weave]
  | e :: es, kv :: kvs, hl, hd => by
    have hl' : es.length = kvs.length + 1 := by simpa using hl
    simp only [weave, List.map_append, List.map_cons] at hd ⊢
    obtain ⟨-, hrest, hcross⟩ := List.pairwise_append.1 hd
    obtain ⟨hkv, hrest⟩ := List.pairwise_cons.1 hrest
    by_cases hk : p kv.1
    · rw [List.countP_append, List.countP_eq_length.2 fun a ha => hcross a ha _ (List.mem_cons_self _ _) hk,
        List.countP_cons_of_pos _ _ hk, countP_weave p es kvs hl' hrest, List.countP_cons_of_pos _ _ hk,
        offset_cons_succ, List.getD_cons_succ, List.length_map]
      omega
    · have hnone : ∀ b ∈ (weave f es kvs).map Prod.fst, ¬ p b := fun b hb hpb => hk (hkv b hb hpb)
      rw [List.countP_append, List.countP_cons_of_neg _ _ hk, List.countP_eq_zero.2 hnone,
        List.countP_cons_of_neg _ _ hk, List.countP_eq_zero.2 fun b hb =>
          hnone b (((sublist_weave_kvs f es kvs hl').map Prod.fst).subset hb)]
      simp
  | [], _, hl, _ | _ :: _ :: _, [], hl, _ => by simp at hl

/-- the pairs of edge `j`'s subtree come after the slots before `j` and before the slots from `j` -/
theorem weave_gap {R : K × V → K × V → Prop} :
    ∀ (es : List (Node K V)) (kvs : List (K × V)) (j : ℕ), es.length = kvs.length + 1 → j ≤ kvs.length →
      (weave f es kvs).Pairwise R → ∀ x ∈ f (es.getD j Node.empty),
        (∀ a ∈ kvs.take j, R a x) ∧ ∀ b ∈ kvs.drop j, R x b
  | [_], [], 0, _, _, _, _, _ => by simp
  | e :: es, kv :: kvs, 0, hl, _, hp, x, hx => by
    rw [weave, List.pairwise_append] at hp
    exact ⟨by simp, fun b hb => hp.2.2 x hx b
      (((sublist_weave_kvs f es kvs (by simpa using hl)).cons₂ kv).subset hb)⟩
  | e :: es, kv :: kvs, j + 1, hl, hj, hp, x, hx => by
    rw [weave, List.pairwise_append, List.pairwise_cons] at hp
    have hl' : es.length = kvs.length + 1 := by simpa using hl
    have hj' : j ≤ kvs.length := by simpa using hj
    rw [List.getD_cons_succ] at hx
    obtain ⟨ih1, ih2⟩ := weave_gap es kvs j hl' hj' hp.2.1.2 x hx
    refine ⟨?_, by simpa using ih2⟩
    rw [List.take_succ_cons]
    exact List.forall_mem_cons.2 ⟨hp.2.1.1 x ((sublist_weave_edge f es kvs j hl' hj').subset hx), ih1⟩
  | [], _, _, hl, _, _, _, _ | _ :: _ :: _, [], _, hl, _, _, _, _ => by simp at hl
  | [_], [], _ + 1, _, hj, _, _, _ => by simp at hj

end Weave

section Step

variable (key : K → κ)

/-- the keys of edge `j`'s subtree lie between the node's keys before `j` and those from `j` -/
theorem between_of_mem_edge {h : ℕ} {n : Node K V} (hs : Shaped (h + 1) n)
    (hA : Ascending key ((inorder (h + 1) n).map Prod.fst)) {j : ℕ} (hj : j ≤ n.len) :
    ∀ k ∈ (inorder h (n.edge j)).map Prod.fst, Between key n.keys j (key k) := by
  intro k hk
  obtain ⟨x, hx, rfl⟩ := List.mem_map.1 hk
  obtain ⟨h1, h2⟩ := weave_gap (inorder h) n.edges n.kvs j hs.1 hj
    (List.pairwise_map.1 (show Ascending key ((weave (inorder h) n.edges n.kvs).map Prod.fst) from hA)) x hx
  exact ⟨by simpa [Node.keys, ← List.map_take] using h1, by simpa [Node.keys, ← List.map_drop] using h2⟩

/-- **Through an internal node.** A count of keys on a prefix of an ascending subtree is the pairs before the edge
`j` that count picks among the node's keys, plus the count in that edge's subtree of any predicate agreeing with
it between the edge's neighbouring keys -/
theorem countP_inorder_succ {h : ℕ} {n : Node K V} (hs : Shaped (h + 1) n)
    (hA : Ascending key ((inorder (h + 1) n).map Prod.fst)) {p q : K → Bool} {j : ℕ}
    (hd : Downward p ((inorder (h + 1) n).map Prod.fst)) (hj : n.keys.countP p = j)
    (hq : ∀ k, Between key n.keys j (key k) → (q k ↔ p k)) :
    ((inorder (h + 1) n).map Prod.fst).countP p =
      offset (inorder h) n.edges j + ((inorder h (n.edge j)).map Prod.fst).countP q := by
  subst hj
  have hj : n.keys.countP p ≤ n.len := by simpa using List.countP_le_length p (l := n.keys)
  rw [inorder_succ, countP_weave (inorder h) p n.edges n.kvs hs.1 hd]
  congr 1
  exact List.countP_congr fun k hk => (hq k (between_of_mem_edge key hs hA hj k hk)).symm

/-- the subtree at a path is a run of the tree's pairs -/
theorem sublist_inorder_nodeAt : ∀ {h : ℕ} {n : Node K V} {p : List ℕ}, Shaped h n → PathOK h n p →
    (inorder (h - p.length) (nodeAt n p)).Sublist (inorder h n)
  | _, _, [], _, _ => List.Sublist.refl _
  | h + 1, n, j :: p, hs, hp => by
    simpa using (sublist_inorder_nodeAt (hs.edge hp.1) hp.2).trans (sublist_weave_edge _ _ _ j hs.1 hp.1)
  | 0, _, _ :: _, _, hp => hp.elim

end Step

/-! ## Down to the leaves -/

section Descend

variable (find : Node K V → SearchBound → Handle × SearchBound)

/-- Modelled from the spec: one side of the loop of `range_search` below the bifurcation: from edge `i` of the node
of height `h` at `n`, with the bound `b`, down into the child, where `find` (`find_lower_bound_edge` or
`find_upper_bound_edge`) gives the next edge and bound, until a leaf edge -/
def descend : ℕ → Node K V → ℕ → SearchBound → Handle
  | 0, _, i, _ => ⟨[], i⟩
  | h + 1, n, i, b => (descend h (n.edge i) (find (n.edge i) b).1.idx (find (n.edge i) b).2).under i

variable {key : K → κ} {P : SearchBound → κ → Prop} [∀ b, DecidablePred (P b)]

theorem IsLeafEdge.under {h : ℕ} {n : Node K V} {i : ℕ} {e : Handle} (hi : i ≤ n.len)
    (he : IsLeafEdge h (n.edge i) e) : IsLeafEdge (h + 1) n (e.under i) :=
  ⟨⟨hi, he.1⟩, by simp [Handle.under, he.2.1], he.2.2⟩

theorem IsLeafEdge.below {h : ℕ} {n : Node K V} {p : List ℕ} {e : Handle} (hp : PathOK h n p)
    (he : IsLeafEdge (h - p.length) (nodeAt n p) e) : IsLeafEdge h n (e.below p) :=
  ⟨(pathOK_append e.path hp).2 he.1, by simp [Handle.below, he.2.1, hp.length_le],
    by simpa [Handle.below, nodeAt_append] using he.2.2⟩

theorem rank_below {h : ℕ} {n : Node K V} {p : List ℕ} (hp : PathOK h n p) (e : Handle) :
    rank h n (e.below p).path (e.below p).idx = pathOffset h n p + rank (h - p.length) (nodeAt n p) e.path e.idx :=
  rank_append h n p e.path e.idx hp

/-- **The descent.** When `find` cuts every ascending node at the count of keys `P b` holds for (`P b` passing
from a key to every smaller one), the descent from edge `i` reaches a leaf edge whose rank is the pairs before
edge `i` plus the count of keys in its subtree that `P b` holds for -/
theorem descend_spec (hP : ∀ b {x y : κ}, x < y → P b y → P b x)
    (hfind : ∀ (c : Node K V) b, Ascending key c.keys → Cuts key P c.keys 0 b ((find c b).1.idx, (find c b).2)) :
    ∀ (h : ℕ) (n : Node K V) (i : ℕ) (b : SearchBound), Shaped (h + 1) n →
      Ascending key ((inorder (h + 1) n).map Prod.fst) → i ≤ n.len →
      IsLeafEdge (h + 1) n (descend find (h + 1) n i b) ∧
        rank (h + 1) n (descend find (h + 1) n i b).path (descend find (h + 1) n i b).idx =
          offset (inorder h) n.edges i + ((inorder h (n.edge i)).map Prod.fst).countP fun k => P b (key k)
  | h, n, i, b, hs, hA, hi => by
    have hAc := hA.edge key hs hi
    have hc := hfind (n.edge i) b (hAc.keys_of_inorder key (hs.edge hi))
    have hidx : (find (n.edge i) b).1.idx = (n.edge i).keys.countP fun k => P b (key k) := by
      simpa using hc.idx_eq
    have hle : (find (n.edge i) b).1.idx ≤ (n.edge i).len := by
      rw [hidx]; simpa using List.countP_le_length (fun k => decide (P b (key k))) (l := (n.edge i).keys)
    cases h with
    | zero => exact ⟨⟨⟨hi, trivial⟩, rfl, hle⟩, by simp only [descend, Handle.under, rank, hidx]; rfl⟩
    | succ h =>
      obtain ⟨he, hr⟩ := descend_spec hP hfind h (n.edge i) _ (find (n.edge i) b).2 (hs.edge hi) hAc hle
      refine ⟨he.under hi, ?_⟩
      rw [descend, Handle.under, rank, hr,
        ← countP_inorder_succ key (hs.edge hi) hAc (hAc.downward key fun hab hb => by
          simpa using hP b hab (by simpa using hb)) hidx.symm fun k hk => by simpa using hc.agree (key k) hk]

/-- **From the node.** Under the same conditions, `find` at the node and the descent from the edge it gives reach
the leaf edge whose rank is the count of keys `P b` holds for -/
theorem descend_find_spec (hP : ∀ b {x y : κ}, x < y → P b y → P b x)
    (hfind : ∀ (c : Node K V) b, Ascending key c.keys → Cuts key P c.keys 0 b ((find c b).1.idx, (find c b).2))
    {h : ℕ} {n : Node K V} (hs : Shaped h n) (hA : Ascending key ((inorder h n).map Prod.fst)) (b : SearchBound) :
    IsLeafEdge h n (descend find h n (find n b).1.idx (find n b).2) ∧
      rank h n (descend find h n (find n b).1.idx (find n b).2).path
        (descend find h n (find n b).1.idx (find n b).2).idx =
          ((inorder h n).map Prod.fst).countP fun k => P b (key k) := by
  have hc := hfind n b (hA.keys_of_inorder key hs)
  have hidx : (find n b).1.idx = n.keys.countP fun k => P b (key k) := by simpa using hc.idx_eq
  have hle : (find n b).1.idx ≤ n.len := by
    rw [hidx]; simpa using List.countP_le_length (fun k => decide (P b (key k))) (l := n.keys)
  cases h with
  | zero => exact ⟨⟨trivial, rfl, hle⟩, hidx⟩
  | succ h =>
    obtain ⟨he, hr⟩ := descend_spec find hP hfind h n _ (find n b).2 hs hA hle
    exact ⟨he, hr.trans (countP_inorder_succ key hs hA (hA.downward key fun hab hb => by
      simpa using hP b hab (by simpa using hb)) hidx.symm fun k hk => by simpa using hc.agree (key k) hk).symm⟩

/-- a bound that `find` hands on unchanged, and reads the same way as `find'`, leads both descents to one edge -/
theorem descend_congr (find' : Node K V → SearchBound → Handle × SearchBound) {b : SearchBound}
    (hb : ∀ c, find c b = find' c b ∧ (find c b).2 = b) :
    ∀ (h : ℕ) (n : Node K V) (i : ℕ), descend find h n i b = descend find' h n i b
  | 0, _, _ => rfl
  | h + 1, n, i => by
    simp only [descend, ← (hb (n.edge i)).1, (hb (n.edge i)).2, descend_congr find' hb h]

end Descend

/-- under `AllIncluded` and `AllExcluded` both bound edges ignore the comparator and hand the bound on -/
theorem findBoundEdge_all {b : SearchBound} (hb : b = .allIncluded ∨ b = .allExcluded) (c : Node K V)
    (comp comp' : Comparator K) :
    (findLowerBoundEdge c comp b = findLowerBoundEdge c comp' b ∧ (findLowerBoundEdge c comp b).2 = b) ∧
      (findUpperBoundEdge c comp b = findUpperBoundEdge c comp' b ∧ (findUpperBoundEdge c comp b).2 = b) := by
  rcases hb with rfl | rfl <;> exact ⟨⟨rfl, rfl⟩, rfl, rfl⟩

/-! ## A bound from the root -/

/-- Modelled from the spec: `NodeRef::lower_bound`: `find_lower_bound_edge` at the node of height `h` at `n`, then
down the edge it gives with the bound it hands to the child, and so on at every level, until a leaf edge -/
def lowerBound (comp : Comparator K) (h : ℕ) (n : Node K V) (bound : SearchBound) : Handle :=
  descend (fun c => findLowerBoundEdge c comp) h n (findLowerBoundEdge n comp bound).1.idx
    (findLowerBoundEdge n comp bound).2

/-- Modelled from the spec: `NodeRef::upper_bound`, the same descent with `find_upper_bound_edge` -/
def upperBound (comp : Comparator K) (h : ℕ) (n : Node K V) (bound : SearchBound) : Handle :=
  descend (fun c => findUpperBoundEdge c comp) h n (findUpperBoundEdge n comp bound).1.idx
    (findUpperBoundEdge n comp bound).2

section Bound

variable (key : K → κ) (t : κ) {h : ℕ} {n : Node K V}

/-- `AllIncluded` and `AllExcluded` never call the comparator, at the node or below it -/
theorem lowerBound_upperBound_comp {b : SearchBound} (hb : b = .allIncluded ∨ b = .allExcluded)
    (comp comp' : Comparator K) :
    lowerBound comp h n b = lowerBound comp' h n b ∧ upperBound comp h n b = upperBound comp' h n b := by
  have hl := fun c : Node K V => (findBoundEdge_all hb c comp comp').1
  have hu := fun c : Node K V => (findBoundEdge_all hb c comp comp').2
  simp only [lowerBound, upperBound, ← (hl n).1, ← (hu n).1, (hl n).2, (hu n).2]
  exact ⟨descend_congr _ _ hl h n _, descend_congr _ _ hu h n _⟩

variable (hs : Shaped h n) (hA : Ascending key ((inorder h n).map Prod.fst))
include hs hA

/-- `lower_bound` reaches the leaf edge past the keys the bound rejects -/
theorem lowerBound_spec (b : SearchBound) :
    IsLeafEdge h n (lowerBound (Comparator.ofTarget key t) h n b) ∧
      rank h n (lowerBound (Comparator.ofTarget key t) h n b).path
        (lowerBound (Comparator.ofTarget key t) h n b).idx =
          ((inorder h n).map Prod.fst).countP fun k => ¬ LowerOK t b (key k) :=
  descend_find_spec _ (P := fun b x => ¬ LowerOK t b x) (fun _ _ _ hxy hy hx => hy (hx.mono hxy.le))
    (fun c b hA => findLowerBoundIndex_cuts key t c hA b) hs hA b

/-- `upper_bound` reaches the leaf edge past the keys the bound admits -/
theorem upperBound_spec (b : SearchBound) :
    IsLeafEdge h n (upperBound (Comparator.ofTarget key t) h n b) ∧
      rank h n (upperBound (Comparator.ofTarget key t) h n b).path
        (upperBound (Comparator.ofTarget key t) h n b).idx =
          ((inorder h n).map Prod.fst).countP fun k => UpperOK t b (key k) :=
  descend_find_spec _ (P := fun b x => UpperOK t b x) (fun _ _ _ hxy hy => hy.anti hxy.le)
    (fun c b hA => findUpperBoundIndex_cuts key t c hA b (Nat.zero_le _)) hs hA b

/-- both descents, with `|k| compare(t, k)` for `Included` and `Excluded` and any comparator for the others -/
theorem lowerBound_upperBound_spec {comp : Comparator K} {b : SearchBound}
    (hcomp : b = .included ∨ b = .excluded → comp = Comparator.ofTarget key t) :
    (IsLeafEdge h n (lowerBound comp h n b) ∧
      rank h n (lowerBound comp h n b).path (lowerBound comp h n b).idx =
        ((inorder h n).map Prod.fst).countP fun k => ¬ LowerOK t b (key k)) ∧
    (IsLeafEdge h n (upperBound comp h n b) ∧
      rank h n (upperBound comp h n b).path (upperBound comp h n b).idx =
        ((inorder h n).map Prod.fst).countP fun k => UpperOK t b (key k)) := by
  have hc : lowerBound comp h n b = lowerBound (Comparator.ofTarget key t) h n b ∧
      upperBound comp h n b = upperBound (Comparator.ofTarget key t) h n b := by
    cases b with
    | included => rw [hcomp (.inl rfl)]; exact ⟨rfl, rfl⟩
    | excluded => rw [hcomp (.inr rfl)]; exact ⟨rfl, rfl⟩
    | allIncluded => exact lowerBound_upperBound_comp (.inl rfl) _ _
    | allExcluded => exact lowerBound_upperBound_comp (.inr rfl) _ _
  rw [hc.1, hc.2]
  exact ⟨lowerBound_spec key t hs hA b, upperBound_spec key t hs hA b⟩

end Bound

/-- **`lower_bound` and `upper_bound`.** On every shaped tree whose in-order keys ascend under `key`, for every
bound, `Included` or `Excluded` searched with `|k| compare(t, k)`, or `AllIncluded` or `AllExcluded` with any
comparator: `find_lower_bound_edge` at the root and at every level below, each time down the edge it gives with the
bound it hands down, reaches the leaf edge whose rank is the number of keys the bound rejects (below `t`, at or
below `t`, none, all), and the same descent with `find_upper_bound_edge` the leaf edge whose rank is the number of
keys it admits (at or below `t`, below `t`, all, none). -/
theorem lowerBound_upperBound_rank (key : K → κ) (t : κ) (comp : Comparator K) (h : ℕ) (n : Node K V)
    (hs : Shaped h n) (hA : Ascending key ((inorder h n).map Prod.fst)) (b : SearchBound)
    (hcomp : b = .included ∨ b = .excluded → comp = Comparator.ofTarget key t) :
    IsLeafEdge h n (lowerBound comp h n b) ∧
      rank h n (lowerBound comp h n b).path (lowerBound comp h n b).idx =
        (match b with
        | .included => ((inorder h n).map Prod.fst).countP fun k => key k < t
        | .excluded => ((inorder h n).map Prod.fst).countP fun k => key k ≤ t
        | .allIncluded => 0
        | .allExcluded => (inorder h n).length) ∧
      IsLeafEdge h n (upperBound comp h n b) ∧
      rank h n (upperBound comp h n b).path (upperBound comp h n b).idx =
        (match b with
        | .included => ((inorder h n).map Prod.fst).countP fun k => key k ≤ t
        | .excluded => ((inorder h n).map Prod.fst).countP fun k => key k < t
        | .allIncluded => (inorder h n).length
        | .allExcluded => 0) := by
  obtain ⟨⟨hl, hlr⟩, hu, hur⟩ := lowerBound_upperBound_spec key t hs hA hcomp
  refine ⟨hl, hlr.trans ?_, hu, hur.trans ?_⟩ <;> cases b <;> simp [LowerOK, UpperOK]

/-- the root key `2` of `twoLevel` (`1 | 2 | 3`), `Included`: `lower_bound` matches it at the root and goes down
the left edge with `AllExcluded`, to the leaf edge after `1`; `upper_bound` goes down the right edge with
`AllExcluded`, to the leaf edge after `2` -/
theorem lowerBound_upperBound_rank_twoLevel :
    Shaped 1 twoLevel ∧ Ascending id ((inorder 1 twoLevel).map Prod.fst) ∧
      (SearchBound.included = .included ∨ SearchBound.included = .excluded →
        Comparator.ofTarget id 2 = Comparator.ofTarget id 2) ∧
      IsLeafEdge 1 twoLevel (lowerBound (Comparator.ofTarget id 2) 1 twoLevel .included) ∧
      rank 1 twoLevel (lowerBound (Comparator.ofTarget id 2) 1 twoLevel .included).path
        (lowerBound (Comparator.ofTarget id 2) 1 twoLevel .included).idx = 1 ∧
      IsLeafEdge 1 twoLevel (upperBound (Comparator.ofTarget id 2) 1 twoLevel .included) ∧
      rank 1 twoLevel (upperBound (Comparator.ofTarget id 2) 1 twoLevel .included).path
        (upperBound (Comparator.ofTarget id 2) 1 twoLevel .included).idx = 2 :=
  have hs : Shaped 1 twoLevel := by simp [Shaped, twoLevel, Node.len]
  have hA : Ascending id ((inorder 1 twoLevel).map Prod.fst) := by decide
  have hr := lowerBound_upperBound_rank id 2 (Comparator.ofTarget id 2) 1 twoLevel hs hA .included fun _ => rfl
  ⟨hs, hA, fun _ => rfl, hr.1, hr.2.1.trans (by decide), hr.2.2.1, hr.2.2.2.trans (by decide)⟩

example : lowerBound (Comparator.ofTarget id 2) 1 twoLevel .included = ⟨[0], 1⟩ ∧
    upperBound (Comparator.ofTarget id 2) 1 twoLevel .included = ⟨[1], 0⟩ := ⟨rfl, rfl⟩

/-! ## The bifurcation -/

section Bifurcation

variable (key : K → κ) (lo hi : κ)

/-- the number of keys the lower end rejects: on ascending keys, those before the range -/
def belowCount (lb : SearchBound) (ks : List K) : ℕ := ks.countP fun k => ¬ LowerOK lo lb (key k)

/-- the number of keys the lower end rejects or the upper end admits: on ascending keys, those before the range's
end -/
def throughCount (lb ub : SearchBound) (ks : List K) : ℕ :=
  ks.countP fun k => ¬ LowerOK lo lb (key k) ∨ UpperOK hi ub (key k)

/-- on ascending keys, a key is in range exactly when its position lies between the two counts -/
theorem inRange_iff {ks : List K} (hA : Ascending key ks) (lb ub : SearchBound) {j : ℕ} (hj : j < ks.length) :
    InRange lo hi lb ub (key ks[j]) ↔ belowCount key lo lb ks ≤ j ∧ j < throughCount key lo hi lb ub ks := by
  have h1 := (hA.downward_below key lo lb).getElem_iff hj
  have h2 := (hA.downward_through key lo hi lb ub).getElem_iff hj
  simp only [decide_eq_true_eq] at h1 h2
  unfold InRange belowCount throughCount
  by_cases hl : LowerOK lo lb (key ks[j])
  · simp only [hl, not_true_eq_false, false_or, false_iff, not_lt] at h1 h2
    simp only [hl, true_and, h2]
    exact ⟨fun h => ⟨h1, h⟩, And.right⟩
  · simp only [hl, not_false_eq_true, true_iff] at h1
    simp only [hl, false_and, false_iff, not_and, not_lt]
    intro h
    omega

/-- on ascending keys, the keys before the range's end are those before the range and, past them, those the upper
end admits -/
theorem throughCount_eq {ks : List K} (hA : Ascending key ks) (lb ub : SearchBound) :
    throughCount key lo hi lb ub ks =
      belowCount key lo lb ks + (ks.drop (belowCount key lo lb ks)).countP fun k => UpperOK hi ub (key k) := by
  have hd := hA.downward_below key lo lb
  have hc : belowCount key lo lb ks ≤ ks.length := List.countP_le_length _
  unfold throughCount
  conv_lhs => rw [← List.take_append_drop (belowCount key lo lb ks) ks]
  rw [List.countP_append, List.countP_eq_length.2 fun k hk => ?_, List.length_take, min_eq_left hc]
  · congr 1
    refine List.countP_congr fun k hk => ?_
    have hk' := hd.drop_countP k hk
    simp only [decide_eq_true_eq, not_not] at hk'
    simp [hk']
  · simpa using Or.inl (by simpa using hd.take_countP k hk)

/-- **`bifurcation` at one node.** On ascending keys, the lower edge is the count of keys before the range and the
upper edge the count of keys before its end -/
theorem bifurcationStep_edges {n : Node K V} (hA : Ascending key n.keys) (lb ub : SearchBound) {b : Bifurcation}
    (hb : bifurcationStep n (Comparator.ofTarget key lo) (Comparator.ofTarget key hi) lb ub = b) :
    b.lowerEdgeIdx = belowCount key lo lb n.keys ∧ b.upperEdgeIdx = throughCount key lo hi lb ub n.keys := by
  subst hb
  have hl : (findLowerBoundIndex n (Comparator.ofTarget key lo) lb).1 = belowCount key lo lb n.keys := by
    simpa [belowCount] using (findLowerBoundIndex_cuts key lo n hA lb).idx_eq
  refine ⟨hl, ?_⟩
  show (findUpperBoundIndex n _ ub (findLowerBoundIndex n _ lb).1).1 = _
  rw [(findUpperBoundIndex_cuts key hi n hA ub (findLowerBoundIndex_le n _ lb)).idx_eq, hl,
    throughCount_eq key lo hi hA]

/-- where a node's two edges agree, the bounds handed to the child admit, between the edge's neighbouring keys,
what the node's bounds admit -/
theorem agree_between {n : Node K V} (hAn : Ascending key n.keys) (lb ub : SearchBound) {b : Bifurcation}
    (hb : bifurcationStep n (Comparator.ofTarget key lo) (Comparator.ofTarget key hi) lb ub = b)
    (heq : b.lowerEdgeIdx = b.upperEdgeIdx) : ∀ x, Between key n.keys b.lowerEdgeIdx x →
      (LowerOK lo b.lowerChildBound x ↔ LowerOK lo lb x) ∧ (UpperOK hi b.upperChildBound x ↔ UpperOK hi ub x) := by
  have hc := findLowerBoundIndex_cuts key lo n hAn lb
  have hu := findUpperBoundIndex_cuts key hi n hAn ub (findLowerBoundIndex_le n (Comparator.ofTarget key lo) lb)
  subst hb
  exact fun x hx => ⟨not_iff_not.1 (hc.agree x hx),
    hu.agree x (heq ▸ hx : Between key n.keys (bifurcationStep n _ _ lb ub).upperEdgeIdx x)⟩

section Succ

variable {h : ℕ} {n : Node K V} (hs : Shaped (h + 1) n) (hA : Ascending key ((inorder (h + 1) n).map Prod.fst))
  (lb ub : SearchBound) {b : Bifurcation}
  (hb : bifurcationStep n (Comparator.ofTarget key lo) (Comparator.ofTarget key hi) lb ub = b)
include hs hA hb

/-- below the lower edge: the keys before the range are the pairs before the edge and those before the range in
its subtree, under the bound handed to the child -/
theorem belowCount_succ :
    belowCount key lo lb ((inorder (h + 1) n).map Prod.fst) =
      offset (inorder h) n.edges b.lowerEdgeIdx +
        belowCount key lo b.lowerChildBound ((inorder h (n.edge b.lowerEdgeIdx)).map Prod.fst) := by
  have hc := findLowerBoundIndex_cuts key lo n (hA.keys_of_inorder key hs) lb
  have hl := (bifurcationStep_edges key lo hi (hA.keys_of_inorder key hs) lb ub hb).1
  subst hb
  exact countP_inorder_succ key hs hA (hA.downward_below key lo lb) hl.symm fun k hk => by
    simpa using hc.agree (key k) hk

/-- where the two edges agree: the keys before the range's end are the pairs before the edge and those before the
end in its subtree, under the two bounds handed to the child -/
theorem throughCount_succ_of_eq (heq : b.lowerEdgeIdx = b.upperEdgeIdx) :
    throughCount key lo hi lb ub ((inorder (h + 1) n).map Prod.fst) =
      offset (inorder h) n.edges b.lowerEdgeIdx + throughCount key lo hi b.lowerChildBound b.upperChildBound
        ((inorder h (n.edge b.lowerEdgeIdx)).map Prod.fst) := by
  have hAn := hA.keys_of_inorder key hs
  have hag := agree_between key lo hi hAn lb ub hb heq
  refine countP_inorder_succ key hs hA (hA.downward_through key lo hi lb ub)
    (heq.trans (bifurcationStep_edges key lo hi hAn lb ub hb).2).symm fun k hk => ?_
  simp only [decide_eq_true_eq]
  exact or_congr (not_congr (hag (key k) hk).1) (hag (key k) hk).2

/-- where the upper edge is past the lower one: the keys before the range's end are the pairs before the upper
edge and those the upper bound handed to its child admits in its subtree -/
theorem throughCount_succ_of_lt (hlt : b.lowerEdgeIdx < b.upperEdgeIdx) :
    throughCount key lo hi lb ub ((inorder (h + 1) n).map Prod.fst) =
      offset (inorder h) n.edges b.upperEdgeIdx +
        ((inorder h (n.edge b.upperEdgeIdx)).map Prod.fst).countP fun k => UpperOK hi b.upperChildBound (key k) := by
  have hAn := hA.keys_of_inorder key hs
  have hu := findUpperBoundIndex_cuts key hi n hAn ub (findLowerBoundIndex_le n (Comparator.ofTarget key lo) lb)
  obtain ⟨hl, hu'⟩ := bifurcationStep_edges key lo hi hAn lb ub hb
  have hlen : b.upperEdgeIdx ≤ n.len := hb ▸ (bifurcationStep_le n _ _ lb ub).2
  have hlk : b.lowerEdgeIdx < n.keys.length := by simp; omega
  -- the key at the lower edge is admitted by the lower end, and lies before every key past the upper edge
  have hkl : LowerOK lo lb (key n.keys[b.lowerEdgeIdx]) := by
    have hl' : n.keys.countP (fun k => ¬ LowerOK lo lb (key k)) = b.lowerEdgeIdx := hl.symm
    have := (hAn.downward_below key lo lb).drop_countP n.keys[b.lowerEdgeIdx]
      (by rw [hl']; exact (mem_take_drop_of_getElem? (List.getElem?_eq_getElem hlk)).2)
    simpa using this
  have hmem : n.keys[b.lowerEdgeIdx] ∈ n.keys.take b.upperEdgeIdx :=
    List.mem_take_iff_getElem.2 ⟨_, by omega, rfl⟩
  subst hb
  refine countP_inorder_succ key hs hA (hA.downward_through key lo hi lb ub) hu'.symm fun k hk => ?_
  have hk' : LowerOK lo lb (key k) := hkl.mono (hk.1 _ hmem).le
  simpa [hk'] using hu.agree (key k) hk

end Succ

/-- Modelled from the spec: the front leaf edge `range_search` descends to from a bifurcation found in the node of
height `h` at `n`: from its lower edge, with `find_lower_bound_edge` and the lower bound for the child -/
def Bifurcation.lowerLeafEdge (lowerComp : Comparator K) (h : ℕ) (n : Node K V) (b : Bifurcation) : Handle :=
  (descend (fun c => findLowerBoundEdge c lowerComp) (h - b.path.length) (nodeAt n b.path) b.lowerEdgeIdx
    b.lowerChildBound).below b.path

/-- Modelled from the spec: the back leaf edge `range_search` descends to from a bifurcation: from its upper edge,
with `find_upper_bound_edge` and the upper bound for the child -/
def Bifurcation.upperLeafEdge (upperComp : Comparator K) (h : ℕ) (n : Node K V) (b : Bifurcation) : Handle :=
  (descend (fun c => findUpperBoundEdge c upperComp) (h - b.path.length) (nodeAt n b.path) b.upperEdgeIdx
    b.upperChildBound).below b.path

section Level

variable {h : ℕ} {n : Node K V} (hs : Shaped h n) (hA : Ascending key ((inorder h n).map Prod.fst))
  (lb ub : SearchBound) {b : Bifurcation}
  (hb : bifurcationStep n (Comparator.ofTarget key lo) (Comparator.ofTarget key hi) lb ub = b)
include hs hA hb

/-- the descent from a node's lower edge reaches the leaf edge after the keys before the range, no earlier than
the lower edge's subtree -/
theorem lowerLeafEdge_spec :
    IsLeafEdge h n (b.lowerLeafEdge (Comparator.ofTarget key lo) h n) ∧
      rank h n (b.lowerLeafEdge (Comparator.ofTarget key lo) h n).path
        (b.lowerLeafEdge (Comparator.ofTarget key lo) h n).idx = belowCount key lo lb ((inorder h n).map Prod.fst) ∧
      edgeStart h n [] b.lowerEdgeIdx ≤ belowCount key lo lb ((inorder h n).map Prod.fst) := by
  have hl := (bifurcationStep_edges key lo hi (hA.keys_of_inorder key hs) lb ub hb).1
  have hle : b.lowerEdgeIdx ≤ n.len := hb ▸ findLowerBoundIndex_le n _ lb
  cases h with
  | zero => subst hb; exact ⟨⟨trivial, rfl, hle⟩, hl, hl.le⟩
  | succ h =>
    have hsucc := belowCount_succ key lo hi hs hA lb ub hb
    subst hb
    obtain ⟨he, hr⟩ := descend_spec (fun c => findLowerBoundEdge c (Comparator.ofTarget key lo))
      (P := fun b x => ¬ LowerOK lo b x) (fun _ _ _ hxy hy hx => hy (hx.mono hxy.le))
      (fun c b hA => findLowerBoundIndex_cuts key lo c hA b) h n _ _ hs hA hle
    refine ⟨he, hr.trans hsucc.symm, ?_⟩
    rw [hsucc]
    exact Nat.le_add_right _ _

/-- where the two edges differ, the descent from the upper edge reaches the leaf edge after the keys before the
range's end, no later than the end of the upper edge's subtree -/
theorem upperLeafEdge_spec (hlt : b.lowerEdgeIdx < b.upperEdgeIdx) :
    IsLeafEdge h n (b.upperLeafEdge (Comparator.ofTarget key hi) h n) ∧
      rank h n (b.upperLeafEdge (Comparator.ofTarget key hi) h n).path
        (b.upperLeafEdge (Comparator.ofTarget key hi) h n).idx =
          throughCount key lo hi lb ub ((inorder h n).map Prod.fst) ∧
      throughCount key lo hi lb ub ((inorder h n).map Prod.fst) ≤ rank h n [] b.upperEdgeIdx := by
  have hu := (bifurcationStep_edges key lo hi (hA.keys_of_inorder key hs) lb ub hb).2
  have hle : b.upperEdgeIdx ≤ n.len := hb ▸ (bifurcationStep_le n _ _ lb ub).2
  cases h with
  | zero => subst hb; exact ⟨⟨trivial, rfl, hle⟩, hu, hu.ge⟩
  | succ h =>
    have hsucc := throughCount_succ_of_lt key lo hi hs hA lb ub hb hlt
    subst hb
    obtain ⟨he, hr⟩ := descend_spec (fun c => findUpperBoundEdge c (Comparator.ofTarget key hi))
      (P := fun b x => UpperOK hi b x) (fun _ _ _ hxy hy => hy.anti hxy.le)
      (fun c b hA => findUpperBoundIndex_cuts key hi c hA b (Nat.zero_le _)) h n _ _ hs hA hle
    refine ⟨he, hr.trans hsucc.symm, ?_⟩
    rw [hsucc]
    exact Nat.add_le_add_left (by simpa using List.countP_le_length _) _

/-- where the two edges differ, the node's key at the lower edge is in range -/
theorem inRange_lowerEdge (hlt : b.lowerEdgeIdx < b.upperEdgeIdx) :
    ∃ kv, n.kvs[b.lowerEdgeIdx]? = some kv ∧ InRange lo hi lb ub (key kv.1) := by
  have hAn := hA.keys_of_inorder key hs
  obtain ⟨hl, hu⟩ := bifurcationStep_edges key lo hi hAn lb ub hb
  have hle : b.upperEdgeIdx ≤ n.len := hb ▸ (bifurcationStep_le n _ _ lb ub).2
  have hj : b.lowerEdgeIdx < n.keys.length := by simp; omega
  have hj' : b.lowerEdgeIdx < n.kvs.length := by simpa using hj
  refine ⟨n.kvs[b.lowerEdgeIdx], List.getElem?_eq_getElem hj', ?_⟩
  simpa [Node.keys] using (inRange_iff key lo hi hAn lb ub hj).2 ⟨hl.ge, hu ▸ hlt⟩

end Level

/-- where the search stopped: at the node at `b.path`, under bounds `lbN` and `ubN` that admit on its subtree what
`lb` and `ub` admit, with the node's two edges differing, and the tree's two counts those of the subtree after the
pairs before it -/
structure StopsAt (h : ℕ) (n : Node K V) (lb ub : SearchBound) (b : Bifurcation) (lbN ubN : SearchBound) :
    Prop where
  path_ok : PathOK h n b.path
  step_eq : bifurcationStep (nodeAt n b.path) (Comparator.ofTarget key lo) (Comparator.ofTarget key hi) lbN ubN =
    { b with path := [] }
  lt : b.lowerEdgeIdx < b.upperEdgeIdx
  agree : ∀ k ∈ (inorder (h - b.path.length) (nodeAt n b.path)).map Prod.fst,
    (LowerOK lo lbN (key k) ↔ LowerOK lo lb (key k)) ∧ (UpperOK hi ubN (key k) ↔ UpperOK hi ub (key k))
  below_eq : belowCount key lo lb ((inorder h n).map Prod.fst) =
    pathOffset h n b.path + belowCount key lo lbN ((inorder (h - b.path.length) (nodeAt n b.path)).map Prod.fst)
  through_eq : throughCount key lo hi lb ub ((inorder h n).map Prod.fst) =
    pathOffset h n b.path +
      throughCount key lo hi lbN ubN ((inorder (h - b.path.length) (nodeAt n b.path)).map Prod.fst)

/-- **The loop of `search_tree_for_bifurcation`.** On an ascending tree, the search either fails at a leaf edge
whose rank is the count of keys before the range, that count being also the count before the range's end, or
stops where `StopsAt` says -/
theorem searchTreeForBifurcation_stops : ∀ (h : ℕ) (n : Node K V) (lb ub : SearchBound), Shaped h n →
    Ascending key ((inorder h n).map Prod.fst) →
    match searchTreeForBifurcation (Comparator.ofTarget key lo) (Comparator.ofTarget key hi) h n lb ub with
    | .error e => IsLeafEdge h n e ∧ rank h n e.path e.idx = belowCount key lo lb ((inorder h n).map Prod.fst) ∧
        throughCount key lo hi lb ub ((inorder h n).map Prod.fst) = belowCount key lo lb ((inorder h n).map Prod.fst)
    | .ok b => ∃ lbN ubN, StopsAt key lo hi h n lb ub b lbN ubN
  | h, n, lb, ub, hs, hA => by
    have hAn := hA.keys_of_inorder key hs
    unfold searchTreeForBifurcation
    generalize hb : bifurcationStep n (Comparator.ofTarget key lo) (Comparator.ofTarget key hi) lb ub = b
    obtain ⟨hl, hu⟩ := bifurcationStep_edges key lo hi hAn lb ub hb
    have hle : b.lowerEdgeIdx ≤ b.upperEdgeIdx ∧ b.upperEdgeIdx ≤ n.len := hb ▸ bifurcationStep_le n _ _ lb ub
    simp only
    split_ifs with hlt
    · subst hb
      exact ⟨lb, ub, pathOK_nil _ _, rfl, hlt, fun _ _ => ⟨Iff.rfl, Iff.rfl⟩,
        by simp [pathOffset, bifurcationStep], by simp [pathOffset, bifurcationStep]⟩
    have heq : b.lowerEdgeIdx = b.upperEdgeIdx := by omega
    cases h with
    | zero => exact ⟨⟨trivial, rfl, heq ▸ hle.2⟩, hl, hu.symm.trans (heq.symm.trans hl)⟩
    | succ h =>
      have hli : b.lowerEdgeIdx ≤ n.len := heq ▸ hle.2
      have hbelow := belowCount_succ key lo hi hs hA lb ub hb
      have hthrough := throughCount_succ_of_eq key lo hi hs hA lb ub hb heq
      have hag := agree_between key lo hi hAn lb ub hb heq
      have ih := searchTreeForBifurcation_stops h (n.edge b.lowerEdgeIdx) b.lowerChildBound b.upperChildBound
        (hs.edge hli) (hA.edge key hs hli)
      simp only
      generalize searchTreeForBifurcation (Comparator.ofTarget key lo) (Comparator.ofTarget key hi) h
        (n.edge b.lowerEdgeIdx) b.lowerChildBound b.upperChildBound = res at ih
      cases res with
      | error e =>
        obtain ⟨he, hr, ht⟩ := ih
        exact ⟨he.under hli, by rw [hbelow, ← hr]; rfl, by rw [hthrough, ht, hbelow]⟩
      | ok c =>
        obtain ⟨lbN, ubN, st⟩ := ih
        refine ⟨lbN, ubN, ⟨hli, st.path_ok⟩, st.step_eq, st.lt, fun k hk => ?_, ?_, ?_⟩
        · simp only [List.length_cons, Nat.add_sub_add_right, nodeAt_cons] at hk
          have hk' := ((sublist_inorder_nodeAt (hs.edge hli) st.path_ok).map Prod.fst).subset hk
          have hbt := hag (key k) (between_of_mem_edge key hs hA hli k hk')
          exact ⟨(st.agree k hk).1.trans hbt.1, (st.agree k hk).2.trans hbt.2⟩
        · simp only [bifurcationUnder, pathOffset, List.length_cons, Nat.add_sub_add_right, nodeAt_cons]
          rw [hbelow, st.below_eq, add_assoc]
        · simp only [bifurcationUnder, pathOffset, List.length_cons, Nat.add_sub_add_right, nodeAt_cons]
          rw [hthrough, st.through_eq, add_assoc]

section Stopped

variable {key lo hi} {h : ℕ} {n : Node K V} {lb ub : SearchBound} {b : Bifurcation} {lbN ubN : SearchBound}
  (hs : Shaped h n) (hA : Ascending key ((inorder h n).map Prod.fst)) (st : StopsAt key lo hi h n lb ub b lbN ubN)
include hs hA st

/-- from where the search stopped, the descents from its two edges reach, seen from the root, the leaf edges after
the keys before the range and after those before its end, no earlier than edge `l` and no later than edge `u` -/
theorem StopsAt.leafEdges :
    IsLeafEdge h n (b.lowerLeafEdge (Comparator.ofTarget key lo) h n) ∧
      IsLeafEdge h n (b.upperLeafEdge (Comparator.ofTarget key hi) h n) ∧
      rank h n (b.lowerLeafEdge (Comparator.ofTarget key lo) h n).path
        (b.lowerLeafEdge (Comparator.ofTarget key lo) h n).idx = belowCount key lo lb ((inorder h n).map Prod.fst) ∧
      rank h n (b.upperLeafEdge (Comparator.ofTarget key hi) h n).path
        (b.upperLeafEdge (Comparator.ofTarget key hi) h n).idx =
          throughCount key lo hi lb ub ((inorder h n).map Prod.fst) ∧
      edgeStart h n b.path b.lowerEdgeIdx ≤ belowCount key lo lb ((inorder h n).map Prod.fst) ∧
      throughCount key lo hi lb ub ((inorder h n).map Prod.fst) ≤ rank h n b.path b.upperEdgeIdx := by
  have hp := st.path_ok
  have hAN : Ascending key ((inorder (h - b.path.length) (nodeAt n b.path)).map Prod.fst) :=
    hA.sublist ((sublist_inorder_nodeAt hs hp).map _)
  obtain ⟨hlow, hlowr, hlows⟩ := lowerLeafEdge_spec key lo hi (hs.nodeAt hp) hAN lbN ubN st.step_eq
  obtain ⟨hupp, huppr, huppe⟩ := upperLeafEdge_spec key lo hi (hs.nodeAt hp) hAN lbN ubN st.step_eq st.lt
  dsimp only at hlows huppe
  -- the two leaf edges, seen from the root
  have hL : b.lowerLeafEdge (Comparator.ofTarget key lo) h n = ({ b with path := [] }.lowerLeafEdge
    (Comparator.ofTarget key lo) (h - b.path.length) (nodeAt n b.path)).below b.path := rfl
  have hU : b.upperLeafEdge (Comparator.ofTarget key hi) h n = ({ b with path := [] }.upperLeafEdge
    (Comparator.ofTarget key hi) (h - b.path.length) (nodeAt n b.path)).below b.path := rfl
  refine ⟨hL ▸ hlow.below hp, hU ▸ hupp.below hp, by rw [hL, rank_below hp, hlowr, st.below_eq],
    by rw [hU, rank_below hp, huppr, st.through_eq], ?_, ?_⟩
  · rw [st.below_eq, edgeStart_eq_pathOffset _ hp]
    exact Nat.add_le_add_left hlows _
  · rw [st.through_eq, rank_eq_pathOffset _ hp]
    exact Nat.add_le_add_left huppe _

/-- where the search stopped, the pair at the lower edge is a pair of the tree, and in range -/
theorem StopsAt.lowerEdge_mem_inRange :
    ∃ kv, (nodeAt n b.path).kvs[b.lowerEdgeIdx]? = some kv ∧ kv ∈ inorder h n ∧ InRange lo hi lb ub (key kv.1) := by
  have hp := st.path_ok
  have hsN := hs.nodeAt hp
  have hsub := sublist_inorder_nodeAt hs hp
  obtain ⟨kv, hkv, hkin⟩ := inRange_lowerEdge key lo hi hsN (hA.sublist (hsub.map _)) lbN ubN st.step_eq st.lt
  dsimp only at hkv
  -- the pair is in the subtree, where the stopping bounds admit what the range admits
  have hmem : kv ∈ inorder (h - b.path.length) (nodeAt n b.path) := by
    have := getElem?_inorder_rank _ _ [] _ hsN (pathOK_nil _ _) (List.getElem?_eq_some_iff.1 hkv).1
    rw [nodeAt_nil, hkv] at this
    exact List.getElem?_mem this
  have hag := st.agree _ (List.mem_map_of_mem Prod.fst hmem)
  exact ⟨kv, hkv, hsub.subset hmem, hag.1.1 hkin.1, hag.2.1 hkin.2⟩

end Stopped

end Bifurcation

/-! ## Comparators the search never calls -/

section Agrees

/-- `c` and `c'` answer alike wherever bound `b` calls one: they are equal, or `b` is `AllIncluded` or
`AllExcluded`, which call no comparator -/
def Agrees (c c' : Comparator K) (b : SearchBound) : Prop := c = c' ∨ b = .allIncluded ∨ b = .allExcluded

theorem agrees_of_imp {c c' : Comparator K} {b : SearchBound} (h : b = .included ∨ b = .excluded → c = c') :
    Agrees c c' b := by
  cases b with
  | included => exact .inl (h (.inl rfl))
  | excluded => exact .inl (h (.inr rfl))
  | allIncluded => exact .inr (.inl rfl)
  | allExcluded => exact .inr (.inr rfl)

variable {lc lc' uc uc' : Comparator K}

/-- where the lower comparators agree the lower index is the same, and they agree under the bound handed on -/
theorem findLowerBoundIndex_agrees (n : Node K V) {b : SearchBound} (hb : Agrees lc lc' b) :
    findLowerBoundIndex n lc b = findLowerBoundIndex n lc' b ∧ Agrees lc lc' (findLowerBoundIndex n lc b).2 := by
  rcases hb with rfl | rfl | rfl
  · exact ⟨rfl, .inl rfl⟩
  · exact ⟨rfl, .inr (.inl rfl)⟩
  · exact ⟨rfl, .inr (.inr rfl)⟩

theorem findUpperBoundIndex_agrees (n : Node K V) (s : ℕ) {b : SearchBound} (hb : Agrees uc uc' b) :
    findUpperBoundIndex n uc b s = findUpperBoundIndex n uc' b s ∧
      Agrees uc uc' (findUpperBoundIndex n uc b s).2 := by
  rcases hb with rfl | rfl | rfl
  · exact ⟨rfl, .inl rfl⟩
  · exact ⟨rfl, .inr (.inl rfl)⟩
  · exact ⟨rfl, .inr (.inr rfl)⟩

theorem bifurcationStep_agrees (n : Node K V) {lb ub : SearchBound} (hl : Agrees lc lc' lb)
    (hu : Agrees uc uc' ub) :
    bifurcationStep n lc uc lb ub = bifurcationStep n lc' uc' lb ub ∧
      Agrees lc lc' (bifurcationStep n lc uc lb ub).lowerChildBound ∧
      Agrees uc uc' (bifurcationStep n lc uc lb ub).upperChildBound := by
  obtain ⟨hL, hl'⟩ := findLowerBoundIndex_agrees n hl
  obtain ⟨hU, hu'⟩ := findUpperBoundIndex_agrees n (findLowerBoundIndex n lc lb).1 hu
  exact ⟨by simp only [bifurcationStep, ← hL, ← hU], hl', hu'⟩

/-- **Any comparator where none is called.** Comparators that agree wherever the bounds call them give the same
search, and agree under the bounds it returns for the children -/
theorem searchTreeForBifurcation_agrees :
    ∀ (h : ℕ) (n : Node K V) {lb ub : SearchBound}, Agrees lc lc' lb → Agrees uc uc' ub →
      searchTreeForBifurcation lc uc h n lb ub = searchTreeForBifurcation lc' uc' h n lb ub ∧
        ∀ b, searchTreeForBifurcation lc uc h n lb ub = .ok b →
          Agrees lc lc' b.lowerChildBound ∧ Agrees uc uc' b.upperChildBound
  | h, n, lb, ub, hl, hu => by
    obtain ⟨hstep, hl', hu'⟩ := bifurcationStep_agrees n hl hu
    unfold searchTreeForBifurcation
    rw [← hstep]
    generalize bifurcationStep n lc uc lb ub = b at hl' hu' ⊢
    dsimp only
    split_ifs with hlt
    · exact ⟨rfl, by rintro _ ⟨⟩; exact ⟨hl', hu'⟩⟩
    · cases h with
      | zero => exact ⟨rfl, by rintro _ ⟨⟩⟩
      | succ h =>
        obtain ⟨he, hok⟩ := searchTreeForBifurcation_agrees h (n.edge b.lowerEdgeIdx) hl' hu'
        refine ⟨by dsimp only; rw [he], fun b' hb' => ?_⟩
        dsimp only at hb'
        cases hr : searchTreeForBifurcation lc uc h (n.edge b.lowerEdgeIdx) b.lowerChildBound b.upperChildBound with
        | error e => rw [hr] at hb'; cases hb'
        | ok c => rw [hr] at hb'; cases hb'; exact hok c hr

theorem lowerLeafEdge_agrees {b : Bifurcation} (hb : Agrees lc lc' b.lowerChildBound) (h : ℕ) (n : Node K V) :
    b.lowerLeafEdge lc h n = b.lowerLeafEdge lc' h n := by
  rcases hb with rfl | hb
  · rfl
  · rw [Bifurcation.lowerLeafEdge, descend_congr _ _ (fun c => (findBoundEdge_all hb c lc lc').1)]
    rfl

theorem upperLeafEdge_agrees {b : Bifurcation} (hb : Agrees uc uc' b.upperChildBound) (h : ℕ) (n : Node K V) :
    b.upperLeafEdge uc h n = b.upperLeafEdge uc' h n := by
  rcases hb with rfl | hb
  · rfl
  · rw [Bifurcation.upperLeafEdge, descend_congr _ _ (fun c => (findBoundEdge_all hb c uc uc').2)]
    rfl

end Agrees

/-- **Range search.** On every shaped tree whose in-order keys ascend under `key`, for every range from `(lo, lb)` to
`(hi, ub)`, each end searched with `|k| compare(t, k)` for its target `t` when its bound is `Included` or
`Excluded` and with any comparator when it is `AllIncluded` or `AllExcluded`, inverted and empty ranges included:
`search_tree_for_bifurcation` returns `Err` exactly when no key is in range, with the leaf edge whose rank is the
number of keys below the range. Otherwise it returns a node and edges `l < u` of it whose key `l` is in range, and
the leaf edges `range_search` descends to from edge `l` with `find_lower_bound_edge` and from edge `u` with
`find_upper_bound_edge`, each with the bound returned for it, bracket exactly the keys in range, inside the node's
subtree between edges `l` and `u`. -/
theorem bifurcation_brackets_range (key : K → κ) (lo hi : κ) (lowerComp upperComp : Comparator K)
    (lb ub : SearchBound) (h : ℕ) (n : Node K V) (hs : Shaped h n) (hA : Ascending key ((inorder h n).map Prod.fst))
    (hlc : lb = .included ∨ lb = .excluded → lowerComp = Comparator.ofTarget key lo)
    (huc : ub = .included ∨ ub = .excluded → upperComp = Comparator.ofTarget key hi) :
    ((∃ e, searchTreeForBifurcation lowerComp upperComp h n lb ub = .error e) ↔
      ∀ kv ∈ inorder h n, ¬ InRange lo hi lb ub (key kv.1)) ∧
    match searchTreeForBifurcation lowerComp upperComp h n lb ub with
    | .error e => IsLeafEdge h n e ∧ rank h n e.path e.idx = belowCount key lo lb ((inorder h n).map Prod.fst)
    | .ok b => PathOK h n b.path ∧ b.lowerEdgeIdx < b.upperEdgeIdx ∧ b.upperEdgeIdx ≤ (nodeAt n b.path).len ∧
        (∃ kv, (nodeAt n b.path).kvs[b.lowerEdgeIdx]? = some kv ∧ InRange lo hi lb ub (key kv.1)) ∧
        IsLeafEdge h n (b.lowerLeafEdge lowerComp h n) ∧ IsLeafEdge h n (b.upperLeafEdge upperComp h n) ∧
        edgeStart h n b.path b.lowerEdgeIdx ≤
          rank h n (b.lowerLeafEdge lowerComp h n).path (b.lowerLeafEdge lowerComp h n).idx ∧
        rank h n (b.upperLeafEdge upperComp h n).path (b.upperLeafEdge upperComp h n).idx ≤
          rank h n b.path b.upperEdgeIdx ∧
        ∀ (j : ℕ) (hj : j < (inorder h n).length), InRange lo hi lb ub (key (inorder h n)[j].1) ↔
          rank h n (b.lowerLeafEdge lowerComp h n).path (b.lowerLeafEdge lowerComp h n).idx ≤ j ∧
            j < rank h n (b.upperLeafEdge upperComp h n).path (b.upperLeafEdge upperComp h n).idx := by
  obtain ⟨heq, hok⟩ := searchTreeForBifurcation_agrees h n (agrees_of_imp hlc) (agrees_of_imp huc)
  have hstop := searchTreeForBifurcation_stops key lo hi h n lb ub hs hA
  have hin : ∀ (j : ℕ) (hj : j < (inorder h n).length), InRange lo hi lb ub (key (inorder h n)[j].1) ↔
      belowCount key lo lb ((inorder h n).map Prod.fst) ≤ j ∧
        j < throughCount key lo hi lb ub ((inorder h n).map Prod.fst) :=
    fun j hj => by
      have := inRange_iff key lo hi hA lb ub (j := j) (by simpa using hj)
      rwa [List.getElem_map] at this
  rw [← heq] at hstop
  generalize searchTreeForBifurcation lowerComp upperComp h n lb ub = res at hstop hok ⊢
  cases res with
  | error e =>
    obtain ⟨he, hr, ht⟩ := hstop
    refine ⟨⟨fun _ kv hkv hkin => ?_, fun _ => ⟨e, rfl⟩⟩, he, hr⟩
    obtain ⟨j, hj, rfl⟩ := List.getElem_of_mem hkv
    have := (hin j hj).1 hkin
    omega
  | ok b =>
    obtain ⟨hL, hU⟩ := hok b rfl
    dsimp only
    rw [lowerLeafEdge_agrees hL, upperLeafEdge_agrees hU]
    obtain ⟨lbN, ubN, st⟩ := hstop
    obtain ⟨hlow, hupp, hrl, hru, hls, hue⟩ := st.leafEdges hs hA
    obtain ⟨kv, hkv, hmem, hkin⟩ := st.lowerEdge_mem_inRange hs hA
    refine ⟨⟨fun ⟨_, he⟩ => (by cases he), fun hall => absurd hkin (hall kv hmem)⟩, st.path_ok, st.lt,
      (st.step_eq ▸ bifurcationStep_le (nodeAt n b.path) _ _ lbN ubN).2, ⟨kv, hkv, hkin⟩, hlow, hupp,
      by rw [hrl]; exact hls, by rw [hru]; exact hue, fun j hj => by rw [hrl, hru]; exact hin j hj⟩

/-- the range from the start of `twoLevel` (`1 | 2 | 3`) to `3`, inclusive, its `AllIncluded` lower end searched with
a comparator that answers `Less` to every key: the search stops at the root, between edges `0` and `1` -/
theorem bifurcation_brackets_range_twoLevel :
    Shaped 1 twoLevel ∧ Ascending id ((inorder 1 twoLevel).map Prod.fst) ∧
    (SearchBound.allIncluded = .included ∨ SearchBound.allIncluded = .excluded →
      Comparator.ofFn (fun _ : ℕ => Ordering.lt) = Comparator.ofTarget id 0) ∧
    (SearchBound.included = .included ∨ SearchBound.included = .excluded →
      Comparator.ofTarget id 3 = Comparator.ofTarget id 3) ∧
    ((∃ e, searchTreeForBifurcation (Comparator.ofFn fun _ => .lt) (Comparator.ofTarget id 3) 1 twoLevel
        .allIncluded .included = .error e) ↔
      ∀ kv ∈ inorder 1 twoLevel, ¬ InRange 0 3 .allIncluded .included (id kv.1)) ∧
    match searchTreeForBifurcation (Comparator.ofFn fun _ => .lt) (Comparator.ofTarget id 3) 1 twoLevel
      .allIncluded .included with
    | .error e => IsLeafEdge 1 twoLevel e ∧
        rank 1 twoLevel e.path e.idx = belowCount id 0 .allIncluded ((inorder 1 twoLevel).map Prod.fst)
    | .ok b => PathOK 1 twoLevel b.path ∧ b.lowerEdgeIdx < b.upperEdgeIdx ∧
        b.upperEdgeIdx ≤ (nodeAt twoLevel b.path).len ∧
        (∃ kv, (nodeAt twoLevel b.path).kvs[b.lowerEdgeIdx]? = some kv ∧
          InRange 0 3 .allIncluded .included (id kv.1)) ∧
        IsLeafEdge 1 twoLevel (b.lowerLeafEdge (Comparator.ofFn fun _ => .lt) 1 twoLevel) ∧
        IsLeafEdge 1 twoLevel (b.upperLeafEdge (Comparator.ofTarget id 3) 1 twoLevel) ∧
        edgeStart 1 twoLevel b.path b.lowerEdgeIdx ≤
          rank 1 twoLevel (b.lowerLeafEdge (Comparator.ofFn fun _ => .lt) 1 twoLevel).path
            (b.lowerLeafEdge (Comparator.ofFn fun _ => .lt) 1 twoLevel).idx ∧
        rank 1 twoLevel (b.upperLeafEdge (Comparator.ofTarget id 3) 1 twoLevel).path
          (b.upperLeafEdge (Comparator.ofTarget id 3) 1 twoLevel).idx ≤ rank 1 twoLevel b.path b.upperEdgeIdx ∧
        ∀ (j : ℕ) (hj : j < (inorder 1 twoLevel).length),
          InRange 0 3 .allIncluded .included (id (inorder 1 twoLevel)[j].1) ↔
            rank 1 twoLevel (b.lowerLeafEdge (Comparator.ofFn fun _ => .lt) 1 twoLevel).path
                (b.lowerLeafEdge (Comparator.ofFn fun _ => .lt) 1 twoLevel).idx ≤ j ∧
              j < rank 1 twoLevel (b.upperLeafEdge (Comparator.ofTarget id 3) 1 twoLevel).path
                (b.upperLeafEdge (Comparator.ofTarget id 3) 1 twoLevel).idx :=
  have hs : Shaped 1 twoLevel := by simp [Shaped, twoLevel, Node.len]
  have hA : Ascending id ((inorder 1 twoLevel).map Prod.fst) := by decide
  have hlc : SearchBound.allIncluded = .included ∨ SearchBound.allIncluded = .excluded →
      Comparator.ofFn (fun _ : ℕ => Ordering.lt) = Comparator.ofTarget id 0 := fun h => absurd h (by decide)
  ⟨hs, hA, hlc, fun _ => rfl,
    bifurcation_brackets_range id 0 3 (Comparator.ofFn fun _ => .lt) (Comparator.ofTarget id 3) .allIncluded
      .included 1 twoLevel hs hA hlc fun _ => rfl⟩

example : searchTreeForBifurcation (Comparator.ofFn fun _ => .lt) (Comparator.ofTarget id 3) 1 twoLevel .allIncluded
    .included = .ok ⟨[], 0, 1, .allIncluded, .included⟩ := rfl

end BtreeMonstrousity
