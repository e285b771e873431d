import Mathlib.Data.List.FinRange
import Mathlib.Data.List.Perm.Basic
import Mathlib.Data.List.Nodup
import Mathlib.Algebra.BigOperators.Group.Finset
import Mathlib.Data.Nat.Factorial.Basic
import Mathlib.Data.Set.Function

/-! # What `PushAddrMsg` sends

    `PushAddrMsg` copies the caller's addresses into a fresh message, and when there
    are more than `MaxAddrPerMsg` of them runs the first 1000 rounds of a
    Fisher–Yates shuffle on the copy, swapping entry `i` with entry
    `i + rand.Intn(n - i)`, and keeps the first 1000. The model takes the values
    `rand.Intn` returned as a list of draws; the caller's list is a value the
    function never writes.

    Round by round, the loop is `picks`: draw `r` takes the `r`-th entry of what is
    left of the pool, and the pool's first entry fills its place
    (`shuffleLoop_picks`). Over a pool without repeats, `picks` is injective on
    valid draws (`picks_injective`) and reaches every list of distinct entries
    (`picks_surjective`); counting the draws by their first value gives how many
    take a given entry (`card_picks_mem`).

    `pushAddrMsg_selection_uniform` puts this together for the list of positions of
    the caller's addresses: the draws are in bijection with the ordered choices of
    1000 distinct positions, and each position is sent by `1000 / n` of them. -/

namespace PeerAddr

variable {α : Type}

/-- Modelled from the spec: `wire.MaxAddrPerMsg`. -/
def maxAddrPerMsg : Nat := 1000

/-! ## The model -/

/-- `l[i], l[j] = l[j], l[i]`; out of range, nothing. -/
def swapAt (l : List α) (i j : Nat) : List α :=
  match l[i]?, l[j]? with
  | some a, some b => (l.set i b).set j a
  | _, _ => l

/-- The shuffle loop of `PushAddrMsg`, from iteration `i` with `k` iterations left:
    swap entry `i` with entry `i + draws[i]`, `draws[i]` being what
    `rand.Intn(addressCount - i)` returned. -/
def shuffleLoop (draws : List Nat) (i : Nat) : Nat → List α → List α
  | 0, l => l
  | k + 1, l => shuffleLoop draws (i + 1) k (swapAt l i (i + draws.getD i 0))

/-- `PushAddrMsg`: the addresses it returns and the address lists it hands to
    `QueueMessage`. It works on a copy, so the caller's list is untouched. -/
def pushAddrMsg (addresses : List α) (draws : List Nat) : List α × List (List α) :=
  let addressCount := addresses.length
  if addressCount = 0 then ([], [])
  else
    let addrList :=
      if addressCount > maxAddrPerMsg then
        (shuffleLoop draws 0 maxAddrPerMsg addresses).take maxAddrPerMsg
      else addresses
    (addrList, [addrList])

/-! ## The loop takes one entry a round -/

theorem swapAt_map {β : Type} (f : α → β) (l : List α) (i j : Nat) :
    swapAt (l.map f) i j = (swapAt l i j).map f := by
  unfold swapAt
  simp only [List.getElem?_map]
  cases l[i]? <;> cases l[j]? <;> simp [List.map_set]

theorem shuffleLoop_map {β : Type} (f : α → β) (draws : List Nat) (i k : Nat) (l : List α) :
    shuffleLoop draws i k (l.map f) = (shuffleLoop draws i k l).map f := by
  induction k generalizing i l with
  | zero => rfl
  | succ k ih => simp only [shuffleLoop, swapAt_map, ih]

theorem swapAt_append (pre suf : List α) (r : Nat) :
    swapAt (pre ++ suf) pre.length (pre.length + r) = pre ++ swapAt suf 0 r := by
  unfold swapAt
  simp only [List.getElem?_append_right (Nat.le_refl _), List.getElem?_append_right
    (Nat.le_add_right _ r), Nat.sub_self, Nat.add_sub_cancel_left]
  cases suf[0]? <;> cases suf[r]? <;>
    simp [List.set_append_right _ _ (Nat.le_refl _),
      List.set_append_right _ _ (Nat.le_add_right pre.length r)]

/-- Draws `rand.Intn` can return for a pool of `m`: the `i`-th below `m - i`. -/
def validDraws : Nat → List Nat → Bool
  | _, [] => true
  | m, r :: rs => decide (r < m) && validDraws (m - 1) rs

/-- The entries the draws take from a pool, the way the loop takes them: draw `r`
    takes the pool's `r`-th entry, whose place the pool's first entry takes before
    it leaves the pool. Returns the entries taken and the pool left. -/
def picks : List Nat → List α → List α × List α
  | [], pool => ([], pool)
  | r :: rs, pool =>
    ((swapAt pool 0 r).take 1 ++ (picks rs (swapAt pool 0 r).tail).1,
      (picks rs (swapAt pool 0 r).tail).2)

/-- Swapping the first entry with entry `r` puts entry `r` first and permutes. -/
theorem swapAt_zero {pool : List α} {r : Nat} (hr : r < pool.length) :
    ∃ t, swapAt pool 0 r = pool[r] :: t ∧ List.Perm (pool[r] :: t) pool := by
  match pool, r, hr with
  | a :: l, 0, _ => exact ⟨l, by simp [swapAt], List.Perm.refl _⟩
  | a :: l, r + 1, hr =>
      have hr' : r < l.length := by simpa using hr
      refine ⟨l.set r a, ?_, ?_⟩
      · simp [swapAt, List.getElem?_eq_getElem hr']
      · have hl : l = l.take r ++ l[r] :: l.drop (r + 1) := by simp
        rw [List.set_eq_take_append_cons_drop, if_pos hr']
        conv_rhs => rw [hl]
        simp only [List.getElem_cons_succ]
        exact (List.perm_middle.cons _).trans ((List.Perm.swap _ _ _).trans
          (List.perm_middle.symm.cons _))

/-- One draw: it takes entry `r`, and the rest of the swapped pool is what is left. -/
theorem picks_cons {pool : List α} {r : Nat} (hr : r < pool.length) (rs : List Nat) :
    picks (r :: rs) pool =
        (pool[r] :: (picks rs (swapAt pool 0 r).tail).1, (picks rs (swapAt pool 0 r).tail).2) ∧
      List.Perm (pool[r] :: (swapAt pool 0 r).tail) pool := by
  obtain ⟨t, ht, hp⟩ := swapAt_zero hr
  simp only [picks, ht, List.tail_cons]
  exact ⟨rfl, hp⟩

theorem swapAt_tail_length {pool : List α} {r : Nat} (hr : r < pool.length) :
    (swapAt pool 0 r).tail.length = pool.length - 1 := by
  obtain ⟨t, ht, hp⟩ := swapAt_zero hr
  rw [ht, List.tail_cons, ← hp.length_eq, List.length_cons, Nat.add_sub_cancel]

/-- Valid draws take one entry each, and what they take and what is left make up the
    pool. -/
theorem picks_perm {d : List Nat} {pool : List α} (hd : validDraws pool.length d = true) :
    (picks d pool).1.length = d.length ∧
      List.Perm ((picks d pool).1 ++ (picks d pool).2) pool := by
  induction d generalizing pool with
  | nil => exact ⟨rfl, List.Perm.refl _⟩
  | cons r rs ih =>
      simp only [validDraws, Bool.and_eq_true, decide_eq_true_eq] at hd
      obtain ⟨ht, hp⟩ := picks_cons hd.1 rs
      have htl := swapAt_tail_length hd.1
      obtain ⟨h1, h2⟩ := @ih _ (htl ▸ hd.2)
      rw [ht]
      exact ⟨by simp [h1], (h2.cons _).trans hp⟩

/-- **DISTINCT DRAWS TAKE DISTINCT SEQUENCES.** From a pool without repeats. -/
theorem picks_injective {pool : List α} (hpool : pool.Nodup) {d d' : List Nat}
    (hd : validDraws pool.length d = true) (hd' : validDraws pool.length d' = true)
    (hlen : d.length = d'.length) (h : (picks d pool).1 = (picks d' pool).1) : d = d' := by
  induction d generalizing pool d' with
  | nil => exact (List.length_eq_zero.1 hlen.symm).symm
  | cons r rs ih =>
      obtain _ | ⟨r', rs'⟩ := d'
      · cases hlen
      simp only [validDraws, Bool.and_eq_true, decide_eq_true_eq] at hd hd'
      obtain ⟨ht, hp⟩ := picks_cons hd.1 rs
      rw [ht, (picks_cons hd'.1 rs').1] at h
      simp only [List.cons.injEq] at h
      obtain rfl : r = r' := (hpool.getElem_inj_iff).1 h.1
      have htl := swapAt_tail_length hd.1
      have hnd : (swapAt pool 0 r).tail.Nodup := (List.nodup_cons.1 (hp.nodup_iff.2 hpool)).2
      rw [ih hnd (htl ▸ hd.2) (htl ▸ hd'.2) (by simpa using hlen) h.2]

/-- **EVERY SEQUENCE OF DISTINCT ENTRIES IS TAKEN BY SOME DRAWS.** From a pool
    without repeats, any list of distinct pool entries, no longer than the pool. -/
theorem picks_surjective [DecidableEq α] {pool : List α} (hpool : pool.Nodup) {c : List α}
    (hc : c.Nodup) (hsub : ∀ x ∈ c, x ∈ pool) (hlen : c.length ≤ pool.length) :
    ∃ d, validDraws pool.length d = true ∧ d.length = c.length ∧ (picks d pool).1 = c := by
  induction c generalizing pool with
  | nil => exact ⟨[], rfl, rfl, rfl⟩
  | cons x cs ih =>
      have hx : pool.indexOf x < pool.length := List.indexOf_lt_length.2 (hsub x (by simp))
      have hpx : pool[pool.indexOf x] = x := List.getElem_indexOf hx
      have hp := (picks_cons hx []).2
      rw [hpx] at hp
      have hnd : (swapAt pool 0 (pool.indexOf x)).tail.Nodup :=
        (List.nodup_cons.1 (hp.nodup_iff.2 hpool)).2
      have hsub' : ∀ y ∈ cs, y ∈ (swapAt pool 0 (pool.indexOf x)).tail := fun y hy => by
        have hyx : y ≠ x := fun e => (List.nodup_cons.1 hc).1 (e ▸ hy)
        simpa [hyx] using hp.symm.subset (hsub y (List.mem_cons_of_mem x hy))
      have htl := swapAt_tail_length hx
      obtain ⟨ds, hv, hl, hd⟩ := ih hnd (List.nodup_cons.1 hc).2 hsub' (by simp at hlen; omega)
      refine ⟨pool.indexOf x :: ds, ?_, by simp [hl], ?_⟩
      · simp only [validDraws, Bool.and_eq_true, decide_eq_true_eq]
        exact ⟨hx, htl ▸ hv⟩
      · rw [(picks_cons hx ds).1, hpx, hd]

/-- The loop, from iteration `i` with `pre` in place, takes the remaining draws from
    the rest of the list: what it leaves is `pre`, the entries taken, and what is
    left. -/
theorem shuffleLoop_picks (ds0 rs : List Nat) (pre pool : List α) (h : pre.length = ds0.length)
    (hv : validDraws pool.length rs = true) :
    shuffleLoop (ds0 ++ rs) pre.length rs.length (pre ++ pool) =
      pre ++ (picks rs pool).1 ++ (picks rs pool).2 := by
  induction rs generalizing ds0 pre pool with
  | nil => simp [shuffleLoop, picks]
  | cons r rs ih =>
      simp only [validDraws, Bool.and_eq_true, decide_eq_true_eq] at hv
      obtain ⟨hr, hrs⟩ := hv
      obtain ⟨t, ht, -⟩ := swapAt_zero hr
      have hget : (ds0 ++ r :: rs).getD pre.length 0 = r := by
        rw [h, List.getD_eq_getElem?_getD, List.getElem?_append_right (Nat.le_refl _),
          Nat.sub_self]; simp
      have htl := swapAt_tail_length hr
      rw [ht, List.tail_cons] at htl
      have := ih (ds0 ++ [r]) (pre ++ [pool[r]]) t (by simp [h]) (htl ▸ hrs)
      simp only [List.append_assoc, List.singleton_append, List.length_append,
        List.length_singleton] at this
      rw [List.length_cons, shuffleLoop, hget, swapAt_append, ht, this, (picks_cons hr rs).1]
      simp [ht]

/-! ## Counting the draws -/

/-- Every sequence of `k` draws `rand.Intn` can return, the first below `m`. -/
def drawSet : Nat → Nat → Finset (List Nat)
  | _, 0 => {[]}
  | m, k + 1 => (Finset.range m ×ˢ drawSet (m - 1) k).image fun x => x.1 :: x.2

theorem cons_pair_injective : Function.Injective fun x : Nat × List Nat => x.1 :: x.2 :=
  fun _ _ h => Prod.ext_iff.2 (List.cons.inj h)

theorem mem_drawSet {m k : Nat} {d : List Nat} :
    d ∈ drawSet m k ↔ d.length = k ∧ validDraws m d = true := by
  induction k generalizing m d with
  | zero => cases d <;> simp [drawSet, validDraws]
  | succ k ih =>
      cases d with
      | nil => simp [drawSet]
      | cons r rs =>
          simp only [drawSet, Finset.mem_image, Finset.mem_product, Finset.mem_range, ih,
            Prod.exists, List.cons.injEq, List.length_cons, Nat.add_right_cancel_iff, validDraws,
            Bool.and_eq_true, decide_eq_true_eq]
          constructor
          · rintro ⟨a, x, ⟨ha, hx, hv⟩, rfl, rfl⟩
            exact ⟨hx, ha, hv⟩
          · rintro ⟨hx, ha, hv⟩
            exact ⟨r, rs, ⟨ha, hx, hv⟩, rfl, rfl⟩

theorem mul_descFactorial_pred (n k : Nat) : n * (n - 1).descFactorial k = n.descFactorial (k + 1) := by
  cases n with
  | zero => simp
  | succ n => rw [Nat.succ_descFactorial_succ, Nat.add_sub_cancel]

theorem card_drawSet (m k : Nat) : (drawSet m k).card = m.descFactorial k := by
  induction k generalizing m with
  | zero => rfl
  | succ k ih =>
      rw [drawSet, Finset.card_image_of_injective _ cons_pair_injective, Finset.card_product,
        Finset.card_range, ih, mul_descFactorial_pred]

/-- Counting over draws whose first draw is `r` is counting over the rest. -/
theorem card_filter_drawSet_succ (m k : Nat) (P : List Nat → Prop) [DecidablePred P] :
    ((drawSet m (k + 1)).filter P).card =
      ∑ r ∈ Finset.range m, ((drawSet (m - 1) k).filter fun rs => P (r :: rs)).card := by
  rw [drawSet, Finset.filter_image, Finset.card_image_of_injective _ cons_pair_injective,
    Finset.card_filter, Finset.sum_product]
  simp only [Finset.card_filter]

/-- **EACH ENTRY IS TAKEN BY THE SAME NUMBER OF DRAWS.** Of the draws of length `k`
    from a pool without repeats, `k · (m - 1)! / (m - k)!` take a given entry. -/
theorem card_picks_mem [DecidableEq α] {pool : List α} (hpool : pool.Nodup) {p : α}
    (hp : p ∈ pool) (k : Nat) :
    ((drawSet pool.length k).filter fun d => p ∈ (picks d pool).1).card =
      k * (pool.length - 1).descFactorial (k - 1) := by
  induction k generalizing pool with
  | zero => simp [drawSet, picks, Finset.filter_singleton]
  | succ k ih =>
      have hr0 : pool.indexOf p < pool.length := List.indexOf_lt_length.2 hp
      have hfirst : ((drawSet (pool.length - 1) k).filter
          fun rs => p ∈ (picks (pool.indexOf p :: rs) pool).1).card =
          (pool.length - 1).descFactorial k := by
        rw [Finset.filter_true_of_mem, card_drawSet]
        intro rs _
        simp [(picks_cons hr0 rs).1, List.getElem_indexOf hr0]
      have hrest : ∀ r ∈ (Finset.range pool.length).erase (pool.indexOf p),
          ((drawSet (pool.length - 1) k).filter fun rs => p ∈ (picks (r :: rs) pool).1).card =
            k * (pool.length - 1 - 1).descFactorial (k - 1) := by
        intro r hr
        obtain ⟨hne, hr⟩ := Finset.mem_erase.1 hr
        have hr := Finset.mem_range.1 hr
        have hpr : pool[r] ≠ p := fun h => hne (h ▸ List.indexOf_getElem hpool r hr).symm
        obtain ⟨hpicks, hperm⟩ := picks_cons hr []
        have hnd := (List.nodup_cons.1 (hperm.nodup_iff.2 hpool)).2
        have hmem : p ∈ (swapAt pool 0 r).tail := by
          simpa [Ne.symm hpr] using hperm.symm.subset hp
        rw [← swapAt_tail_length hr, ← ih hnd hmem]
        congr 1
        apply Finset.filter_congr
        intro rs _
        simp [(picks_cons hr rs).1, hpr, Ne.symm hpr]
      rw [card_filter_drawSet_succ, ← Finset.add_sum_erase _ _ (Finset.mem_range.2 hr0), hfirst,
        Finset.sum_const_nat hrest, Finset.card_erase_of_mem (Finset.mem_range.2 hr0),
        Finset.card_range]
      cases k with
      | zero => simp
      | succ k =>
          simp only [Nat.add_sub_cancel]
          rw [Nat.mul_left_comm, mul_descFactorial_pred, Nat.succ_mul (k + 1), Nat.add_comm]

theorem validDraws_iff {m : Nat} {d : List Nat} :
    validDraws m d = true ↔ ∀ i (hi : i < d.length), d[i] < m - i := by
  induction d generalizing m with
  | nil => simp [validDraws]
  | cons r rs ih =>
      simp only [validDraws, Bool.and_eq_true, decide_eq_true_eq, ih, List.length_cons]
      constructor
      · rintro ⟨hr, h⟩ (_ | i) hi
        · exact hr
        · have : rs[i] < m - 1 - i := h i (by omega)
          show rs[i] < m - (i + 1)
          omega
      · intro h
        refine ⟨h 0 (by omega), fun i hi => ?_⟩
        have : rs[i] < m - (i + 1) := h (i + 1) (by omega)
        omega

/-! ## What `PushAddrMsg` sends -/

/-- The positions of a list of `n` addresses that the draws bring to the front. -/
def selection (n : Nat) (draws : List Nat) : List (Fin n) := (picks draws (List.finRange n)).1

theorem selection_length_nodup {n : Nat} {draws : List Nat} (hd : validDraws n draws = true) :
    (selection n draws).length = draws.length ∧ (selection n draws).Nodup := by
  rw [← List.length_finRange n] at hd
  obtain ⟨hl, hp⟩ := picks_perm hd
  exact ⟨hl, (hp.nodup_iff.2 (List.nodup_finRange n)).of_append_left⟩

theorem pushAddrMsg_of_le {L : List α} (h0 : L ≠ []) (h : L.length ≤ maxAddrPerMsg)
    (draws : List Nat) : pushAddrMsg L draws = (L, [L]) := by
  simp [pushAddrMsg, h0, Nat.not_lt.2 h]

/-- Past the limit, `PushAddrMsg` sends the addresses at the selected positions. -/
theorem pushAddrMsg_of_gt {L : List α} (h : maxAddrPerMsg < L.length) {draws : List Nat}
    (hd : draws ∈ drawSet L.length maxAddrPerMsg) :
    pushAddrMsg L draws =
      ((selection L.length draws).map L.get, [(selection L.length draws).map L.get]) := by
  obtain ⟨hlen, hv⟩ := mem_drawSet.1 hd
  have hloop : shuffleLoop draws 0 maxAddrPerMsg (List.finRange L.length) =
      selection L.length draws ++ (picks draws (List.finRange L.length)).2 := by
    simpa only [List.nil_append, List.length_nil, hlen] using
      shuffleLoop_picks [] draws [] (List.finRange L.length) rfl
        ((List.length_finRange L.length).symm ▸ hv)
  have hsel : (shuffleLoop draws 0 maxAddrPerMsg L).take maxAddrPerMsg =
      (selection L.length draws).map L.get := by
    conv_lhs => rw [← List.finRange_map_get L]
    rw [shuffleLoop_map, hloop, ← List.map_take, List.take_left'
      ((selection_length_nodup hv).1.trans hlen)]
  have h0 : L.length ≠ 0 := by unfold maxAddrPerMsg at h; omega
  simp only [pushAddrMsg, if_neg h0, if_pos h, hsel]

/-- **THE DRAWS ARE IN BIJECTION WITH THE ORDERED SELECTIONS.** For `k ≤ n`, the
    valid draws of length `k` select every list of `k` distinct positions, each from
    one sequence of draws. -/
theorem selection_bijOn {n k : Nat} (hk : k ≤ n) :
    Set.BijOn (selection n) (drawSet n k) {c | c.length = k ∧ c.Nodup} := by
  have hpool := List.nodup_finRange n
  refine ⟨fun d hd => ?_, fun d hd d' hd' he => ?_, fun c hc => ?_⟩
  · obtain ⟨hl, hv⟩ := mem_drawSet.1 hd
    exact ⟨(selection_length_nodup hv).1.trans hl, (selection_length_nodup hv).2⟩
  · obtain ⟨hl, hv⟩ := mem_drawSet.1 hd
    obtain ⟨hl', hv'⟩ := mem_drawSet.1 hd'
    rw [← List.length_finRange n] at hv hv'
    exact picks_injective hpool hv hv' (hl.trans hl'.symm) he
  · obtain ⟨d, hv, hl, hs⟩ := picks_surjective hpool hc.2 (fun x _ => List.mem_finRange x)
      (by rw [hc.1, List.length_finRange]; exact hk)
    rw [List.length_finRange] at hv
    exact ⟨d, mem_drawSet.2 ⟨hl.trans hc.1, hv⟩, hs⟩

/-- Each ordered selection of `k ≤ n` positions comes from exactly one sequence of
    draws. -/
theorem card_selection_eq {n k : Nat} (hk : k ≤ n) {c : List (Fin n)} (hl : c.length = k)
    (hn : c.Nodup) : ((drawSet n k).filter fun d => selection n d = c).card = 1 := by
  obtain ⟨d, hd, hs⟩ := (selection_bijOn hk).surjOn ⟨hl, hn⟩
  refine Finset.card_eq_one.2 ⟨d, Finset.eq_singleton_iff_unique_mem.2
    ⟨Finset.mem_filter.2 ⟨hd, hs⟩, fun d' hd' => ?_⟩⟩
  obtain ⟨hd', hs'⟩ := Finset.mem_filter.1 hd'
  exact (selection_bijOn hk).injOn hd' hd (hs'.trans hs.symm)

/-- A position is selected by `k / n` of the draws of length `k`. -/
theorem card_selection_mem {n k : Nat} (i : Fin n) :
    ((drawSet n k).filter fun d => i ∈ selection n d).card * n = k * (drawSet n k).card := by
  have hcount := card_picks_mem (List.nodup_finRange n) (List.mem_finRange i) k
  rw [List.length_finRange] at hcount
  rw [show selection n = fun d => (picks d (List.finRange n)).1 from rfl, hcount, card_drawSet]
  cases k with
  | zero => simp
  | succ k => rw [Nat.mul_assoc, Nat.mul_comm _ n, Nat.add_sub_cancel, mul_descFactorial_pred]

/-- **`PUSHADDRMSG` SENDS A UNIFORM SELECTION.** With no addresses nothing is queued; up
    to the limit the list goes out as it is; past it the draws `rᵢ < n - i` pick 1000
    distinct positions, every ordered choice of them by exactly one sequence of draws,
    so each position is sent by `1000 / n` of the draws. -/
theorem pushAddrMsg_selection_uniform (L : List α) :
    (∀ draws, L.length = 0 → pushAddrMsg L draws = ([], [])) ∧
    (∀ draws, 1 ≤ L.length → L.length ≤ maxAddrPerMsg → pushAddrMsg L draws = (L, [L])) ∧
    (maxAddrPerMsg < L.length →
      (∀ d, d ∈ drawSet L.length maxAddrPerMsg ↔
        d.length = maxAddrPerMsg ∧ ∀ i (hi : i < d.length), d[i] < L.length - i) ∧
      (∀ draws ∈ drawSet L.length maxAddrPerMsg,
        pushAddrMsg L draws =
          ((selection L.length draws).map L.get, [(selection L.length draws).map L.get])) ∧
      Set.BijOn (selection L.length) (drawSet L.length maxAddrPerMsg)
        {c | c.length = maxAddrPerMsg ∧ c.Nodup} ∧
      (∀ c : List (Fin L.length), c.length = maxAddrPerMsg → c.Nodup →
        ((drawSet L.length maxAddrPerMsg).filter fun d => selection L.length d = c).card = 1) ∧
      ∀ i : Fin L.length,
        ((drawSet L.length maxAddrPerMsg).filter fun d => i ∈ selection L.length d).card *
          L.length = maxAddrPerMsg * (drawSet L.length maxAddrPerMsg).card) := by
  refine ⟨fun _ h => by rw [List.length_eq_zero.1 h]; rfl,
    fun draws h0 h => pushAddrMsg_of_le (List.ne_nil_of_length_pos h0) h draws, fun h => ?_⟩
  exact ⟨fun d => by rw [mem_drawSet, validDraws_iff], fun _ hd => pushAddrMsg_of_gt h hd,
    selection_bijOn h.le, fun _ hl hn => card_selection_eq h.le hl hn, card_selection_mem⟩
end PeerAddr
