import Mathlib.Data.List.Nodup
import Mathlib.Data.Finset.Card

/-! # Bounded most-recently-used sets

    The peer keeps two of them: the per-peer known inventory (`knownInventory`,
    limit `maxKnownInventory`) and the process-wide registry of sent version
    nonces (`SentNonces`, limit 50). Their implementation is not in the source
    tree, so the structure below follows the spec's description: a set of at
    most `limit` entries in recency order, where inserting at capacity evicts the
    least recently used entry.

    The structure carries its own well-formedness (no repeats, within the limit),
    so every map the model builds is a valid one.

    `Mru.empty_foldl_add` says which entries a map holds after any sequence of
    insertions: the first `limit` of `recency`, the inserted values each once, most
    recent first. `Mru.mem_empty_foldl_add` reads it as a lifetime: a value stays
    until `limit` other distinct values have been inserted after it; and
    `Mru.mem_add_of_subset` says a map fed from at most `limit` values never
    evicts. -/

namespace PeerMru

/-- Modelled from the spec: `mruInventoryMap` and `mruNonceMap` are not under the
    source tree. The spec: "bounded most-recently-used structures … On insert at
    capacity, the least-recently-used entry is evicted." `items` lists the entries
    most recent first. -/
structure Mru (α : Type) where
  limit : Nat
  items : List α
  limit_pos : 0 < limit
  nodup : items.Nodup
  bounded : items.length ≤ limit

variable {α : Type}

/-- Modelled from the spec: an empty map (`newMruInventoryMap`, `newMruNonceMap`). -/
def Mru.empty (limit : Nat) (h : 0 < limit) : Mru α :=
  ⟨limit, [], h, List.nodup_nil, Nat.zero_le _⟩

@[simp] theorem Mru.empty_items (limit : Nat) (h : 0 < limit) :
    (Mru.empty limit h : Mru α).items = [] := rfl

variable [DecidableEq α]

/-- Modelled from the spec: membership (`Exists`). -/
def Mru.contains (m : Mru α) (x : α) : Bool := decide (x ∈ m.items)

private theorem length_cons_erase {l : List α} {x : α} (hx : x ∈ l) :
    (x :: l.erase x).length = l.length := by
  rw [List.length_cons, List.length_erase_of_mem hx]
  have := List.length_pos_of_mem hx
  omega

/-- Modelled from the spec: insertion (`Add`). A present entry moves to the front;
    a new entry at capacity evicts the last, least recently used, one. -/
def Mru.add (m : Mru α) (x : α) : Mru α :=
  if hx : x ∈ m.items then
    ⟨m.limit, x :: m.items.erase x, m.limit_pos,
      List.nodup_cons.2 ⟨fun h => ((m.nodup.mem_erase_iff).1 h).1 rfl, m.nodup.erase x⟩,
      (length_cons_erase hx).symm ▸ m.bounded⟩
  else if hl : m.limit ≤ m.items.length then
    ⟨m.limit, x :: m.items.dropLast, m.limit_pos,
      List.nodup_cons.2 ⟨fun h => hx (List.dropLast_subset _ h),
        m.nodup.sublist (List.dropLast_sublist _)⟩,
      by rw [List.length_cons, List.length_dropLast]; have := m.bounded; have := m.limit_pos; omega⟩
  else
    ⟨m.limit, x :: m.items, m.limit_pos, List.nodup_cons.2 ⟨hx, m.nodup⟩,
      Nat.succ_le_of_lt (Nat.lt_of_not_le hl)⟩

@[simp] theorem Mru.contains_iff (m : Mru α) (x : α) : m.contains x = true ↔ x ∈ m.items := by
  simp [Mru.contains]

@[simp] theorem Mru.add_limit (m : Mru α) (x : α) : (m.add x).limit = m.limit := by
  unfold Mru.add; split_ifs <;> rfl

/-- An insertion adds at most one entry. -/
theorem Mru.length_add_le (m : Mru α) (x : α) : (m.add x).items.length ≤ m.items.length + 1 := by
  unfold Mru.add
  split_ifs with hx
  · simp only [length_cons_erase hx]; omega
  · simp
  · simp

/-- The inserted entry is present afterwards. -/
theorem Mru.mem_add_self (m : Mru α) (x : α) : x ∈ (m.add x).items := by
  unfold Mru.add; split_ifs <;> simp

/-- Every entry after an insertion is the new one or an old one. -/
theorem Mru.mem_of_mem_add {m : Mru α} {x y : α} (h : y ∈ (m.add x).items) :
    y = x ∨ y ∈ m.items := by
  unfold Mru.add at h
  split_ifs at h
  · exact (List.mem_cons.1 h).imp id (List.mem_of_mem_erase)
  · exact (List.mem_cons.1 h).imp id (fun h' => List.dropLast_subset _ h')
  · exact List.mem_cons.1 h

/-- Below capacity nothing is evicted: every old entry survives an insertion. -/
theorem Mru.mem_add_of_mem {m : Mru α} {x y : α} (hlt : m.items.length < m.limit)
    (h : y ∈ m.items) : y ∈ (m.add x).items := by
  unfold Mru.add
  split_ifs with hx hl
  · by_cases hyx : y = x
    · simp [hyx]
    · exact List.mem_cons_of_mem _ ((m.nodup.mem_erase_iff).2 ⟨hyx, h⟩)
  · omega
  · exact List.mem_cons_of_mem _ h

/-- Below capacity a new entry goes in front and nothing is evicted. -/
theorem Mru.add_of_not_mem {m : Mru α} {x : α} (hx : x ∉ m.items)
    (hlt : m.items.length < m.limit) : (m.add x).items = x :: m.items := by
  unfold Mru.add
  rw [dif_neg hx, dif_neg (by omega)]

/-- Drawing every entry and the inserted value from at most `limit` values, an
    insertion evicts nothing. -/
theorem Mru.mem_add_of_subset {m : Mru α} {x y : α} {V : Finset α} (hV : V.card ≤ m.limit)
    (hm : ∀ z ∈ m.items, z ∈ V) (hx : x ∈ V) (h : y ∈ m.items) : y ∈ (m.add x).items := by
  by_cases hxm : x ∈ m.items
  · unfold Mru.add
    rw [dif_pos hxm]
    by_cases hyx : y = x
    · simp [hyx]
    · exact List.mem_cons_of_mem _ ((m.nodup.mem_erase_iff).2 ⟨hyx, h⟩)
  · refine Mru.mem_add_of_mem ?_ h
    have hsub : m.items.toFinset ⊆ V.erase x := fun z hz => by
      rw [List.mem_toFinset] at hz
      exact Finset.mem_erase.2 ⟨fun e => hxm (e ▸ hz), hm z hz⟩
    have := Finset.card_le_card hsub
    rw [List.toFinset_card_of_nodup m.nodup, Finset.card_erase_of_mem hx] at this
    have := Finset.card_pos.2 ⟨x, hx⟩
    omega

/-! ## Which entries a map holds -/

/-- An insertion puts the value in front, taking it out of where it was, and keeps
    the first `limit` entries. -/
theorem Mru.add_items (m : Mru α) (x : α) :
    (m.add x).items = (x :: m.items.erase x).take m.limit := by
  unfold Mru.add
  split_ifs with hx hl <;> dsimp only
  · exact (List.take_of_length_le (by rw [length_cons_erase hx]; exact m.bounded)).symm
  · have hlen : m.items.length = m.limit := Nat.le_antisymm m.bounded hl
    obtain ⟨k, hk⟩ : ∃ k, m.limit = k + 1 := ⟨m.limit - 1, by have := m.limit_pos; omega⟩
    rw [List.erase_of_not_mem hx, List.dropLast_eq_take, hlen, hk, List.take_succ_cons]
    rfl
  · rw [List.erase_of_not_mem hx]
    exact (List.take_of_length_le (by simp; omega)).symm

/-- The insertions of a sequence into an unbounded recency list. -/
def recency (xs : List α) : List α := xs.foldl (fun r x => x :: r.erase x) []

/-- Erasing from the first `k + 1` entries and keeping `k` is erasing and keeping `k`. -/
theorem erase_take_succ (x : α) : ∀ (r : List α) (k : Nat),
    ((r.take (k + 1)).erase x).take k = (r.erase x).take k
  | [], _ => rfl
  | y :: r, k => by
      by_cases hy : y = x
      · subst hy
        simp [List.take_take]
      · have hb : ¬ (y == x) = true := by simpa using hy
        cases k with
        | zero => simp
        | succ j => simp [List.erase_cons_tail hb, erase_take_succ x r j]

/-- One insertion into a list cut to `l`, cut again, is the insertion into the whole
    list, cut. -/
theorem take_cons_erase_take (l : Nat) (x : α) (r : List α) :
    (x :: (r.take l).erase x).take l = (x :: r.erase x).take l := by
  cases l with
  | zero => rfl
  | succ k => simp only [List.take_succ_cons, erase_take_succ]

/-- Cutting to `l` before further insertions changes nothing once the result is cut
    to `l` again. -/
theorem foldl_take (l : Nat) (xs r : List α) :
    (xs.foldl (fun r x => x :: r.erase x) (r.take l)).take l =
      (xs.foldl (fun r x => x :: r.erase x) r).take l := by
  induction xs generalizing r with
  | nil => simp [List.take_take]
  | cons x xs ih =>
      simp only [List.foldl_cons]
      rw [← ih (x :: (r.take l).erase x), take_cons_erase_take, ih]

/-- A sequence of insertions is the unbounded one, cut to the limit. -/
theorem Mru.foldl_add_items (m : Mru α) (xs : List α) :
    (xs.foldl Mru.add m).items = (xs.foldl (fun r x => x :: r.erase x) m.items).take m.limit := by
  induction xs generalizing m with
  | nil => exact (List.take_of_length_le m.bounded).symm
  | cons x xs ih =>
      rw [List.foldl_cons, ih, Mru.add_limit, Mru.add_items, List.foldl_cons, foldl_take]

/-- **THE MAP HOLDS THE LAST `limit` DISTINCT VALUES.** After any sequence of
    insertions into an empty map, its entries are the first `limit` of the inserted
    values, each once, most recently inserted first. -/
theorem Mru.empty_foldl_add (limit : Nat) (h : 0 < limit) (xs : List α) :
    (xs.foldl Mru.add (Mru.empty limit h)).items = (recency xs).take limit :=
  Mru.foldl_add_items _ xs

/-! ## The recency list -/

/-- A value put in front of a list it was taken out of: still no repeats. -/
theorem nodup_cons_erase {r : List α} (hr : r.Nodup) (y : α) : (y :: r.erase y).Nodup :=
  List.nodup_cons.2 ⟨fun h => (hr.mem_erase_iff.1 h).1 rfl, hr.erase y⟩

/-- Later insertions go on top of the earlier ones. -/
theorem recency_append (xs ys : List α) :
    recency (xs ++ ys) = ys.foldl (fun r x => x :: r.erase x) (recency xs) :=
  List.foldl_append _ _ _ _

/-- Insertions on top of a list without repeats: the recency list of the insertions,
    then what is left of the list. -/
theorem foldl_recency {r : List α} (hr : r.Nodup) (ys : List α) :
    ys.foldl (fun r x => x :: r.erase x) r = recency ys ++ r.filter (fun x => x ∉ ys) := by
  induction ys generalizing r with
  | nil => simp [recency]
  | cons y ys ih =>
      have hy : recency (y :: ys) = recency ys ++ [y].filter (fun x => x ∉ ys) := by
        rw [recency, List.foldl_cons]
        exact ih (List.nodup_singleton y)
      rw [List.foldl_cons, ih (nodup_cons_erase hr y), hy, List.append_assoc,
        ← List.singleton_append, List.filter_append, hr.erase_eq_filter, List.filter_filter]
      congr 3
      funext a
      by_cases a = y <;> simp [*]

/-- Each value once. -/
theorem nodup_recency (xs : List α) : (recency xs).Nodup := by
  induction xs using List.reverseRecOn with
  | nil => exact List.nodup_nil
  | append_singleton xs x ih =>
      rw [recency_append, List.foldl_cons, List.foldl_nil]
      exact nodup_cons_erase ih x

/-- Every inserted value, and nothing else. -/
theorem mem_recency {x : α} {xs : List α} : x ∈ recency xs ↔ x ∈ xs := by
  induction xs using List.reverseRecOn with
  | nil => simp [recency]
  | append_singleton xs y ih =>
      rw [recency_append, List.foldl_cons, List.foldl_nil, List.mem_cons,
        (nodup_recency xs).mem_erase_iff, ih]
      simp only [List.mem_append, List.mem_singleton]
      tauto

/-- As many entries as distinct values inserted. -/
theorem length_recency (xs : List α) : (recency xs).length = xs.toFinset.card := by
  rw [← List.toFinset_card_of_nodup (nodup_recency xs)]
  congr 1
  ext x
  simp [mem_recency]

/-- A value inserted, and not since: the recency list reaches it past the values
    inserted after it. -/
theorem recency_last {xs pre suf : List α} {x : α} (h : xs = pre ++ x :: suf) (hx : x ∉ suf) :
    ∃ rest, recency xs = recency suf ++ x :: rest := by
  subst h
  rw [show pre ++ x :: suf = (pre ++ [x]) ++ suf by simp, recency_append, recency_append,
    List.foldl_cons, List.foldl_nil, foldl_recency (nodup_cons_erase (nodup_recency pre) x),
    List.filter_cons, if_pos (by simpa using hx)]
  exact ⟨_, rfl⟩

/-- A member of a list has a last occurrence. -/
theorem exists_last_occurrence {x : α} {xs : List α} (h : x ∈ xs) :
    ∃ pre suf, xs = pre ++ x :: suf ∧ x ∉ suf := by
  induction xs using List.reverseRecOn with
  | nil => cases h
  | append_singleton xs y ih =>
      by_cases hy : y = x
      · exact ⟨xs, [], by rw [hy], List.not_mem_nil x⟩
      · have hx : x ∈ xs := by simpa [Ne.symm hy] using h
        obtain ⟨pre, suf, rfl, hs⟩ := ih hx
        exact ⟨pre, suf ++ [y], by simp, by simpa [Ne.symm hy] using hs⟩

/-- **HOW LONG A VALUE STAYS.** After any sequence of insertions into an empty map, a
    value is in it exactly when it was inserted and fewer than `limit` distinct
    values were inserted after its last insertion. -/
theorem Mru.mem_empty_foldl_add (limit : Nat) (h : 0 < limit) (xs : List α) (x : α) :
    x ∈ (xs.foldl Mru.add (Mru.empty limit h)).items ↔
      ∃ pre suf, xs = pre ++ x :: suf ∧ x ∉ suf ∧ suf.toFinset.card < limit := by
  rw [Mru.empty_foldl_add]
  constructor
  · intro hm
    obtain ⟨pre, suf, hxs, hs⟩ := exists_last_occurrence (mem_recency.1 (List.mem_of_mem_take hm))
    refine ⟨pre, suf, hxs, hs, ?_⟩
    obtain ⟨rest, hr⟩ := recency_last hxs hs
    rw [← length_recency]
    by_contra hk
    rw [hr, List.take_append_of_le_length (by omega)] at hm
    exact hs (mem_recency.1 (List.mem_of_mem_take hm))
  · rintro ⟨pre, suf, hxs, hs, hk⟩
    obtain ⟨rest, hr⟩ := recency_last hxs hs
    rw [← length_recency] at hk
    rw [hr, List.take_append_eq_append_take]
    obtain ⟨j, hj⟩ : ∃ j, limit - (recency suf).length = j + 1 := ⟨_, (Nat.succ_pred_eq_of_pos (by omega)).symm⟩
    rw [hj, List.take_succ_cons]
    exact List.mem_append_right _ (List.mem_cons_self _ _)

end PeerMru
