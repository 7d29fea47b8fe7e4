import BtreeMonstrousity.Range

/-!
The comparison traits of `BTreeMap` (`map.rs`): `PartialEq`, `Ord` and `Hash`, each a loop over `iter()`.

- `Iter.Yields it xs`: the calls of `next` on `it` return the items of `xs` in order, and then `None`. `iter()` of a
  map whose length field counts its entries yields its entries (`iter_yields`), whatever the shape of its tree.
- `BTreeMap.eq`: `self.len() == other.len() && self.iter().zip(other).all(|(a, b)| a == b)`; `zipAll` is the
  `all` over the `zip`.
- `BTreeMap.cmp`: `self.iter().cmp(other.iter())`, `Iterator::cmp` comparing the items as tuples, key then value;
  `lexCompare` is that comparison on two lists.
- `BTreeMap.hash`: `write_length_prefix(self.len())`, then each pair's key and value (`Hash for (A, B)`), through a
  `Hasher` given as the three writes.

Results:
- `comparisons_see_entries`: on maps whose length fields count their entries, `eq` is the elementwise `==` of the
  entry sequences (for any `PartialEq`, lawful or not), `cmp` their lexicographic comparison, and `hash` the hash
  of the length and then of the entries in order: none of them depends on the shape of the trees.
- `hash_eq_of_eq`: for keys and values whose `==` is equality, two maps that `eq` relates hash alike under every
  hasher from every state, as `Hash` requires of `Eq`.
-/

namespace BtreeMonstrousity

variable {K V H : Type}

/-- the calls of `next` on `it` return the items of `xs` in order, and then `None` -/
def Iter.Yields : Iter K V → List (K × V) → Prop
  | it, [] => it.next.1 = none
  | it, x :: xs => it.next.1 = some x ∧ Iter.Yields it.next.2 xs

/-- a `Hasher` with its state `H`, as the writes of `Hash for BTreeMap` reach it: `write_length_prefix`, and a
key's and a value's `hash(state)` -/
structure Hasher (H K V : Type) where
  writeLengthPrefix : H → ℕ → H
  hashKey : K → H → H
  hashValue : V → H → H

/-- `self.iter().zip(other).all(|(a, b)| a == b)`: pairs from both iterators until one of them runs out, each pair
compared as a tuple (`a.0 == b.0 && a.1 == b.1`), stopping at the first that differs; at most `fuel` pairs -/
def zipAll [BEq K] [BEq V] : ℕ → Iter K V → Iter K V → Bool
  | 0, _, _ => true
  | fuel + 1, a, b =>
    match a.next.1, b.next.1 with
    | some x, some y => x == y && zipAll fuel a.next.2 b.next.2
    | _, _ => true

/-- `Iterator::cmp` (`iter_compare`): each item of `a` against the next of `b`, compared as a tuple (key, then
value), the first that differ deciding; `Greater` when `b` runs out first, `Less` when `a` does, `Equal` when both
do; at most `fuel` items of `a` -/
def cmpLoop [Ord K] [Ord V] : ℕ → Iter K V → Iter K V → Ordering
  | 0, _, _ => .eq
  | fuel + 1, a, b =>
    match a.next.1, b.next.1 with
    | none, none => .eq
    | none, some _ => .lt
    | some _, none => .gt
    | some x, some y =>
      match (compare x.1 y.1).then (compare x.2 y.2) with
      | .eq => cmpLoop fuel a.next.2 b.next.2
      | o => o

/-- `for elt in self { elt.hash(state) }`: each pair's key and then its value hashed, at most `fuel` turns -/
def hashLoop (hs : Hasher H K V) : ℕ → Iter K V → H → H
  | 0, _, h => h
  | fuel + 1, it, h =>
    match it.next.1 with
    | none => h
    | some (k, v) => hashLoop hs fuel it.next.2 (hs.hashValue v (hs.hashKey k h))

namespace BTreeMap

/-- `PartialEq::eq`: the loop gets a turn for every element of `self` and one more -/
def eq [BEq K] [BEq V] (m₁ m₂ : BTreeMap K V) : Bool :=
  m₁.length == m₂.length && zipAll (m₁.length + 1) m₁.iter m₂.iter

/-- `Ord::cmp` -/
def cmp [Ord K] [Ord V] (m₁ m₂ : BTreeMap K V) : Ordering := cmpLoop (m₁.length + 1) m₁.iter m₂.iter

/-- `Hash::hash` -/
def hash (hs : Hasher H K V) (m : BTreeMap K V) (h : H) : H :=
  hashLoop hs (m.length + 1) m.iter (hs.writeLengthPrefix h m.length)

end BTreeMap

/-- the lexicographic comparison of two sequences of pairs, each pair compared by its key and then its value -/
def lexCompare [Ord K] [Ord V] : List (K × V) → List (K × V) → Ordering
  | [], [] => .eq
  | [], _ :: _ => .lt
  | _ :: _, [] => .gt
  | x :: xs, y :: ys => ((compare x.1 y.1).then (compare x.2 y.2)).then (lexCompare xs ys)

/-- the hash of a length and then of a sequence of pairs, each its key and then its value -/
def hashEntries (hs : Hasher H K V) (h : H) (l : List (K × V)) : H :=
  l.foldl (fun h kv => hs.hashValue kv.2 (hs.hashKey kv.1 h)) (hs.writeLengthPrefix h l.length)

/-! ## What `iter()` yields -/

section Yields

/-- from front and back at gaps `f ≤ b`, the calls of `next` return the pairs at `f, ..., b - 1` -/
theorem Iter.yields_of_inv {r : Root K V} : ∀ (n : ℕ) {it : Iter K V} {f b : ℕ}, it.Inv r f b → b - f = n →
    it.Yields ((r.inorder.drop f).take n)
  | 0, _, f, b, hI, hn => by
    rw [List.take_zero, Iter.Yields, (Iter.next_spec hI).1, if_neg (by omega)]
  | n + 1, _, f, b, hI, hn => by
    obtain ⟨h1, h2⟩ := Iter.next_spec hI
    have hf : f < r.inorder.length := by have := hI.le_length; omega
    rw [if_pos (by omega : f < b)] at h1 h2
    rw [List.drop_eq_getElem_cons hf, List.take_succ_cons]
    exact ⟨h1.trans (List.getElem?_eq_getElem hf), Iter.yields_of_inv n h2 (by omega)⟩

/-- `iter()` yields the entries -/
theorem iter_yields {m : BTreeMap K V} (hlen : m.length = m.entries.length) : m.iter.Yields m.entries := by
  rcases m with ⟨_ | r, n⟩
  · rfl
  · simpa using Iter.yields_of_inv r.inorder.length (iter_inv_full (show n = r.inorder.length from hlen)) rfl

end Yields

/-! ## The three loops -/

section Loops

theorem zipAll_spec [BEq K] [BEq V] : ∀ {xs ys : List (K × V)} {a b : Iter K V} {fuel : ℕ}, a.Yields xs →
    b.Yields ys → xs.length < fuel → xs.length = ys.length → zipAll fuel a b = (xs == ys)
  | [], [], _, _, _ + 1, ha, hb, _, _ => by
    rw [zipAll, show _ = none from ha, show _ = none from hb]; rfl
  | x :: xs, y :: ys, _, _, fuel + 1, ha, hb, hf, hl => by
    rw [zipAll, ha.1, hb.1, zipAll_spec ha.2 hb.2 (by simp at hf; omega) (by simpa using hl)]
    rfl
  | [], _ :: _, _, _, _, _, _, _, hl | _ :: _, [], _, _, _, _, _, _, hl => absurd hl (by simp)
  | _, _, _, _, 0, _, _, hf, _ => absurd hf (Nat.not_lt_zero _)

theorem cmpLoop_spec [Ord K] [Ord V] : ∀ {xs ys : List (K × V)} {a b : Iter K V} {fuel : ℕ}, a.Yields xs →
    b.Yields ys → xs.length < fuel → cmpLoop fuel a b = lexCompare xs ys
  | [], [], _, _, _ + 1, ha, hb, _ => by
    rw [cmpLoop, show _ = none from ha, show _ = none from hb]; rfl
  | [], _ :: _, _, _, _ + 1, ha, hb, _ => by
    rw [cmpLoop, show _ = none from ha, hb.1]; rfl
  | _ :: _, [], _, _, _ + 1, ha, hb, _ => by
    rw [cmpLoop, ha.1, show _ = none from hb]; rfl
  | x :: xs, y :: ys, _, _, fuel + 1, ha, hb, hf => by
    rw [cmpLoop, ha.1, hb.1, lexCompare]
    dsimp only
    cases (compare x.1 y.1).then (compare x.2 y.2)
    · rfl
    · exact cmpLoop_spec ha.2 hb.2 (by simp at hf; omega)
    · rfl
  | _, _, _, _, 0, _, _, hf => absurd hf (Nat.not_lt_zero _)

theorem hashLoop_spec (hs : Hasher H K V) : ∀ {xs : List (K × V)} {it : Iter K V} {fuel : ℕ} (h : H), it.Yields xs →
    xs.length < fuel → hashLoop hs fuel it h = xs.foldl (fun h kv => hs.hashValue kv.2 (hs.hashKey kv.1 h)) h
  | [], _, _ + 1, _, hi, _ => by rw [hashLoop, show _ = none from hi]; rfl
  | (k, v) :: xs, _, fuel + 1, h, hi, hf => by
    rw [hashLoop, hi.1, List.foldl_cons]
    exact hashLoop_spec hs _ hi.2 (by simp at hf; omega)
  | _, _, 0, _, _, hf => absurd hf (Nat.not_lt_zero _)

end Loops

/-! ## The traits -/

section Traits

variable {m₁ m₂ : BTreeMap K V}

theorem BTreeMap.eq_spec [BEq K] [BEq V] (h₁ : m₁.length = m₁.entries.length) (h₂ : m₂.length = m₂.entries.length) :
    m₁.eq m₂ = (m₁.entries == m₂.entries) := by
  rw [BTreeMap.eq, h₁, h₂]
  by_cases hl : m₁.entries.length = m₂.entries.length
  · rw [hl, beq_self_eq_true, Bool.true_and, ← hl, ← h₁]
    exact zipAll_spec (iter_yields h₁) (iter_yields h₂) (by omega) hl
  · rw [show (m₁.entries.length == m₂.entries.length) = false from beq_false_of_ne hl, Bool.false_and]
    exact (Bool.eq_false_iff.2 fun h => hl (List.length_eq_of_beq h)).symm

theorem BTreeMap.hash_spec (hs : Hasher H K V) {m : BTreeMap K V} (hlen : m.length = m.entries.length) (h : H) :
    m.hash hs h = hashEntries hs h m.entries := by
  rw [BTreeMap.hash, hashEntries, hashLoop_spec hs _ (iter_yields hlen) (by omega), hlen]

/-- **The comparison traits see only the entries.** On every two maps whose length fields count their entries:
`PartialEq::eq` is the elementwise `==` of their entry sequences in key order, lengths first, for any `PartialEq`
on keys and values (reflexive or not); `Ord::cmp` is the lexicographic comparison of the entry sequences, each pair
by key and then value, for any `Ord`; and `Hash::hash` writes the length and then each entry's key and value in
key order, for every hasher. None of them depends on the shape of the trees. -/
theorem comparisons_see_entries [BEq K] [BEq V] [Ord K] [Ord V] (hs : Hasher H K V)
    (h₁ : m₁.length = m₁.entries.length) (h₂ : m₂.length = m₂.entries.length) (h : H) :
    m₁.eq m₂ = (m₁.entries == m₂.entries) ∧ m₁.cmp m₂ = lexCompare m₁.entries m₂.entries ∧
      m₁.hash hs h = hashEntries hs h m₁.entries :=
  ⟨BTreeMap.eq_spec h₁ h₂, cmpLoop_spec (iter_yields h₁) (iter_yields h₂) (by omega), BTreeMap.hash_spec hs h₁ h⟩

/-- the entries of `twoLevelMap` in one leaf -/
def threeLeaf : BTreeMap ℕ ℕ := ⟨some (Root.leaf [(1, 0), (2, 0), (3, 0)]), 3⟩

/-- a hasher on `ℕ` that adds up what it is given -/
def sumHasher : Hasher ℕ ℕ ℕ := ⟨fun h n => h + n, fun k h => h + k, fun v h => h + v⟩

/-- `twoLevelMap` and `threeLeaf`, two trees of different heights, are equal and compare `Equal` -/
theorem comparisons_see_entries_twoLevel :
    twoLevelMap.length = twoLevelMap.entries.length ∧ threeLeaf.length = threeLeaf.entries.length ∧
      twoLevelMap.eq threeLeaf = true ∧ twoLevelMap.cmp threeLeaf = .eq :=
  have h₁ : twoLevelMap.length = twoLevelMap.entries.length := rfl
  have h₂ : threeLeaf.length = threeLeaf.entries.length := rfl
  have h := comparisons_see_entries sumHasher h₁ h₂ 0
  ⟨h₁, h₂, h.1.trans (by decide), h.2.1.trans (by decide)⟩

/-- **`Hash` agrees with `Eq`.** For keys and values whose `==` is equality, two maps whose length fields count
their entries and that `PartialEq::eq` relates hash alike, under every hasher from every state: the hash reads only
the length and the entries, which `eq` compares element by element. -/
theorem hash_eq_of_eq [BEq K] [LawfulBEq K] [BEq V] [LawfulBEq V] (hs : Hasher H K V)
    (h₁ : m₁.length = m₁.entries.length) (h₂ : m₂.length = m₂.entries.length) (he : m₁.eq m₂ = true) (h : H) :
    m₁.hash hs h = m₂.hash hs h := by
  rw [BTreeMap.eq_spec h₁ h₂, beq_iff_eq] at he
  rw [BTreeMap.hash_spec hs h₁, BTreeMap.hash_spec hs h₂, he]

/-- `twoLevelMap` and `threeLeaf` hash alike -/
theorem hash_eq_of_eq_twoLevel :
    twoLevelMap.length = twoLevelMap.entries.length ∧ threeLeaf.length = threeLeaf.entries.length ∧
      twoLevelMap.eq threeLeaf = true ∧ twoLevelMap.hash sumHasher 0 = threeLeaf.hash sumHasher 0 :=
  have he : twoLevelMap.eq threeLeaf = true := by decide
  ⟨rfl, rfl, he, hash_eq_of_eq sumHasher rfl rfl he 0⟩

end Traits

end BtreeMonstrousity
