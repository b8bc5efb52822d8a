import Hvos.Memory.Pmm

/-!
# Memory/PmmRange — `pmm_alloc_n`, and when it finds a run of frames

`pmm_alloc_n` scans for `n` clear pages in a row.  Its inner loop is headed `i < n`, not `j < n`, so
what it does at a clear page `i` depends on `i` alone:

* for `n ≤ i` it looks no further and takes the `n` pages from `i` on, used or not;
* for `i < n` it looks for a used page behind `i`, without an end, and goes on behind that page.

So the page it takes is the first clear one behind a used one at or above `n - 1` (`Begins`), and
`pmmAllocN_contiguous_iff` says for which bitmaps that is a run of clear pages when there is one.
The pages tested are part of the result, so that a test past `total_pages` shows.
-/

namespace Hvos.Memory.Pmm

/-! ## The loops -/

/-- The scan of `pmm_alloc` with the pages it tests. -/
def clearScan (p : Pmm) : ℕ → ℕ → Option ℕ × List ℕ
  | _, 0 => (none, [])
  | i, k + 1 =>
    if p.bitmapTest i then Prod.map id (i :: ·) (p.clearScan (i + 1) k) else (some i, [i])

/-- The inner loop, `for (j = 1; i < n; j++)`, from `j` on: `found`, the `j` it ends with, and the
pages tested.  Nothing is returned if `fuel` rounds are not enough. -/
def probe (p : Pmm) (i n : ℕ) : ℕ → ℕ → Option ((Bool × ℕ) × List ℕ)
  | 0, _ => none
  | fuel + 1, j =>
    if i < n then
      if p.bitmapTest ((i + j) % 2 ^ 64) then some ((false, j), [(i + j) % 2 ^ 64])
      else (p.probe i n fuel ((j + 1) % 2 ^ 64)).map (Prod.map id ((i + j) % 2 ^ 64 :: ·))
    else some ((true, j), [])

/-- The outer loop, `for (i = 1; i <= total_pages - n; i++)`, from `i` on: the page found, and the
pages tested. -/
def scan (p : Pmm) (n : ℕ) : ℕ → ℕ → Option (Option ℕ × List ℕ)
  | 0, _ => none
  | fuel + 1, i =>
    if i ≤ (p.totalPages + 2 ^ 64 - n) % 2 ^ 64 then
      if p.bitmapTest i then (p.scan n fuel ((i + 1) % 2 ^ 64)).map (Prod.map id (i :: ·))
      else
        (p.probe i n (fuel + 1) 1).bind fun r =>
          if r.1.1 then some (some i, i :: r.2)
          else (p.scan n fuel ((i + r.1.2 + 1) % 2 ^ 64)).map (Prod.map id (i :: r.2 ++ ·))
    else some (none, [])

/-- `for (k = 0; k < n; k++) bitmap_set(i + k)`. -/
def setRun (p : Pmm) (i n : ℕ) : Pmm :=
  ((List.range n).map fun k => (i + k) % 2 ^ 64).foldl bitmapSet p

/-- What a call of `pmm_alloc_n` comes to: the address returned, with 0 for `NULL`, the allocator
it leaves, and the pages it tested. -/
structure Call where
  addr : ℕ
  pmm : Pmm
  tested : List ℕ

/-- `(void *) (i * PAGE_SIZE)`. -/
def pageAddr (i : ℕ) : ℕ := i * 4096 % 2 ^ 64

/-- Behind the outer loop: the page found is taken with the `n - 1` behind it. -/
def finish (p : Pmm) (n : ℕ) : Option ℕ × List ℕ → Call
  | (none, tested) => ⟨0, p, tested⟩
  | (some i, tested) =>
    ⟨pageAddr i, { p.setRun i n with usedPages := p.usedPages + .ofNat n }, tested⟩

/-- `pmm_alloc_n`, if `fuel` rounds of each loop are enough. -/
def pmmAllocN (p : Pmm) (n fuel : ℕ) : Option Call :=
  if n = 0 then some ⟨0, p, []⟩
  else if n = 1 then
    let tested := (p.clearScan 1 (p.totalPages - 1)).2
    match p.pmmAlloc with
    | none => some ⟨0, p, tested⟩
    | some (i, p') => some ⟨pageAddr i, p', tested⟩
  else (p.scan n fuel 1).map (p.finish n)

/-! ## What is asked of it -/

/-- `n` clear pages from `i` on, in `[1, total_pages)`. -/
def ClearRun (p : Pmm) (n i : ℕ) : Prop :=
  1 ≤ i ∧ i + n ≤ p.totalPages ∧ ∀ k < n, p.bitmapTest (i + k) = false

/-- The `n` pages from `i` on were clear and are set, and nothing else has changed. -/
structure Took (p p' : Pmm) (n i : ℕ) : Prop where
  clear : ∀ k < n, p.bitmapTest (i + k) = false
  test : ∀ j, p'.bitmapTest j = (p.bitmapTest j || decide (i ≤ j ∧ j < i + n))
  totalPages : p'.totalPages = p.totalPages
  usedPages : p'.usedPages = p.usedPages + .ofNat n

/-- One call does what it is for. -/
structure Call.Right (c : Call) (p : Pmm) (n : ℕ) : Prop where
  below : ∀ t ∈ c.tested, t < p.totalPages
  took : c.addr ≠ 0 → Took p c.pmm n (c.addr / 4096)
  null : c.addr = 0 → c.pmm = p
  null_iff : c.addr = 0 ↔ n = 0 ∨ ∀ i, ¬p.ClearRun n i

/-- **Contiguous allocation**: the call returns, and does what it is for. -/
def Contiguous (p : Pmm) (n : ℕ) : Prop :=
  (∃ fuel c, p.pmmAllocN n fuel = some c) ∧
    ∀ fuel c, p.pmmAllocN n fuel = some c → c.Right p n

/-- A clear page behind a used one, at or above `n`, with room for `n` pages. -/
def Begins (p : Pmm) (n c : ℕ) : Prop :=
  n ≤ c ∧ c + n ≤ p.totalPages ∧ p.bitmapTest (c - 1) = true ∧ p.bitmapTest c = false

/-- The bitmaps for which the scan for two pages or more comes out right. -/
structure Scannable (p : Pmm) (n : ℕ) : Prop where
  fits : n ≤ p.totalPages
  /-- The inner loop is stopped by a used page wherever it is entered. -/
  stops : ∀ c, 1 ≤ c → c < n → c + n ≤ p.totalPages →
    ∃ s, c ≤ s ∧ s < p.totalPages ∧ p.bitmapTest s = true
  /-- What is taken is a run, and its address is a 64-bit one. -/
  begins : ∀ c, p.Begins n c → (∀ d < c, ¬p.Begins n d) → p.ClearRun n c ∧ c < 2 ^ 52
  /-- If nothing is taken there is no run. -/
  misses : (∀ c, ¬p.Begins n c) → ∀ i, ¬p.ClearRun n i

/-! ## The inner loop -/

variable {p : Pmm} {n : ℕ} {i fuel j : ℕ}

theorem probe_succ_of_ge (h : n ≤ i) : p.probe i n (fuel + 1) j = some ((true, j), []) := by
  rw [probe, if_neg (Nat.not_lt.2 h)]

/-- Once it has ended, more rounds change nothing. -/
theorem probe_mono {fuel' : ℕ} {r : (Bool × ℕ) × List ℕ} (hle : fuel ≤ fuel')
    (h : p.probe i n fuel j = some r) : p.probe i n fuel' j = some r := by
  induction fuel generalizing fuel' j r with
  | zero => cases h
  | succ fuel ih =>
    obtain ⟨fuel', rfl⟩ : ∃ k, fuel' = k + 1 := ⟨fuel' - 1, by omega⟩
    rw [probe] at h ⊢
    split_ifs at h ⊢ with hi ht
    · exact h
    · obtain ⟨r', hr', rfl⟩ := Option.map_eq_some_iff.1 h
      rw [ih (by omega) hr', Option.map_some]
    · exact h

/-- For `i < n` it only ends at a used page. -/
theorem probe_not_found (hi : i < n) {r : (Bool × ℕ) × List ℕ} (h : p.probe i n fuel j = some r) :
    r.1.1 = false := by
  induction fuel generalizing j r with
  | zero => cases h
  | succ fuel ih =>
    rw [probe, if_pos hi] at h
    split_ifs at h with ht
    · cases h
      rfl
    · obtain ⟨r', hr', rfl⟩ := Option.map_eq_some_iff.1 h
      have hfound := ih hr'
      exact hfound

variable {ts : List ℕ}

/-- **Where the inner loop ends**, if it tests no page past `total_pages`: at the next used page. -/
theorem probe_eq_some (hT : p.totalPages < 2 ^ 64) (hi : i < n) (hj : i + j ≤ p.totalPages)
    {found : Bool} {j' : ℕ} (h : p.probe i n fuel j = some ((found, j'), ts))
    (hts : ∀ t ∈ ts, t < p.totalPages) :
    j ≤ j' ∧ i + j' < p.totalPages ∧ p.bitmapTest (i + j') = true ∧
      ∀ k, j ≤ k → k < j' → p.bitmapTest (i + k) = false := by
  induction fuel generalizing j ts with
  | zero => cases h
  | succ fuel ih =>
    have hwrap : (i + j) % 2 ^ 64 = i + j := Nat.mod_eq_of_lt (by omega)
    rw [probe, if_pos hi, hwrap] at h
    split_ifs at h with ht
    · obtain ⟨⟨rfl, rfl⟩, rfl⟩ := by simpa [Prod.ext_iff] using h
      exact ⟨le_rfl, hts _ (List.mem_singleton_self _), ht, fun k hk hk' => by omega⟩
    · obtain ⟨⟨⟨f, j''⟩, ts'⟩, hr, heq⟩ := Option.map_eq_some_iff.1 h
      obtain ⟨⟨rfl, rfl⟩, rfl⟩ := by simpa [Prod.ext_iff] using heq
      have hlt : i + j < p.totalPages := hts _ List.mem_cons_self
      rw [Nat.mod_eq_of_lt (by omega)] at hr
      obtain ⟨hle, hend, hset, hclear⟩ :=
        ih (by omega) hr fun t ht => hts t (List.mem_cons_of_mem _ ht)
      refine ⟨by omega, hend, hset, fun k hk hk' => ?_⟩
      rcases Nat.eq_or_lt_of_le hk with rfl | hk
      · simpa using ht
      · exact hclear k hk hk'

/-- **It does end there**, given a used page. -/
theorem probe_of_set (hT : p.totalPages < 2 ^ 64) {s : ℕ} (hi : i < n) (hjs : i + j ≤ s)
    (hs : s < p.totalPages) (hset : p.bitmapTest s = true) (hfuel : s < fuel + (i + j)) :
    ∃ j' ts, p.probe i n fuel j = some ((false, j'), ts) ∧ ∀ t ∈ ts, t < p.totalPages := by
  induction fuel generalizing j with
  | zero => omega
  | succ fuel ih =>
    have hwrap : (i + j) % 2 ^ 64 = i + j := Nat.mod_eq_of_lt (by omega)
    have hlt : i + j < p.totalPages := by omega
    rw [probe, if_pos hi, hwrap]
    split_ifs with ht
    · exact ⟨j, _, rfl, by simpa using hlt⟩
    · have hne : i + j ≠ s := fun heq => ht (heq ▸ hset)
      rw [Nat.mod_eq_of_lt (by omega : j + 1 < 2 ^ 64)]
      obtain ⟨j', ts, hr, hts⟩ := ih (j := j + 1) (by omega) (by omega)
      refine ⟨j', (i + j) :: ts, by rw [hr]; rfl, fun t ht => ?_⟩
      rcases List.mem_cons.1 ht with rfl | ht
      · exact hlt
      · exact hts t ht

/-! ## The outer loop -/

theorem scan_mono {fuel' : ℕ} {r : Option ℕ × List ℕ} (hle : fuel ≤ fuel')
    (h : p.scan n fuel i = some r) : p.scan n fuel' i = some r := by
  induction fuel generalizing fuel' i r with
  | zero => cases h
  | succ fuel ih =>
    obtain ⟨fuel', rfl⟩ : ∃ k, fuel' = k + 1 := ⟨fuel' - 1, by omega⟩
    rw [scan] at h ⊢
    split_ifs at h ⊢ with hi ht
    · obtain ⟨r', hr', rfl⟩ := Option.map_eq_some_iff.1 h
      rw [ih (by omega) hr', Option.map_some]
    · obtain ⟨q, hq, hrest⟩ := Option.bind_eq_some_iff.1 h
      rw [probe_mono hle hq, Option.bind_some]
      split_ifs at hrest ⊢ with hfound
      · exact hrest
      · obtain ⟨r', hr', rfl⟩ := Option.map_eq_some_iff.1 hrest
        rw [ih (by omega) hr', Option.map_some]
    · exact h

/-- The first page at which a run may begin, from `i` on. -/
def Chosen (p : Pmm) (n i : ℕ) : Option ℕ → Prop
  | some c => i ≤ c ∧ p.Begins n c ∧ ∀ d, i ≤ d → d < c → ¬p.Begins n d
  | none => ∀ d, i ≤ d → ¬p.Begins n d

variable {r : Option ℕ}

/-- Pages at which no run may begin are passed over. -/
theorem Chosen.of_later {i' : ℕ} (h : p.Chosen n i' r) (hle : i ≤ i')
    (hnone : ∀ d, i ≤ d → d < i' → ¬p.Begins n d) : p.Chosen n i r := by
  have hsplit : ∀ d, i ≤ d → i' ≤ d ∨ ¬p.Begins n d := fun d hd =>
    (Nat.lt_or_ge d i').elim (fun hlt => .inr (hnone d hd hlt)) .inl
  cases r with
  | none => exact fun d hd => (hsplit d hd).elim (h d) id
  | some c =>
    obtain ⟨hc, hb, hfirst⟩ := h
    exact ⟨hle.trans hc, hb, fun d hd hdc => (hsplit d hd).elim (fun hd => hfirst d hd hdc) id⟩

section Scan

variable (hT : p.totalPages < 2 ^ 64)
include hT

/-- The bound `total_pages - n`: short of `n` pages it wraps, and lies past `total_pages`. -/
theorem bound_eq (hn : n < 2 ^ 64) : (p.totalPages + 2 ^ 64 - n) % 2 ^ 64 =
    if n ≤ p.totalPages then p.totalPages - n else p.totalPages + 2 ^ 64 - n := by
  split_ifs with hle
  · rw [show p.totalPages + 2 ^ 64 - n = p.totalPages - n + 2 ^ 64 by omega, Nat.add_mod_right,
      Nat.mod_eq_of_lt (by omega)]
  · exact Nat.mod_eq_of_lt (by omega)

/-- **One round of the outer loop** that tests no page past `total_pages`: the loop is over, a page
is taken, or it goes on behind a used page with nothing but clear pages skipped. -/
theorem scan_succ_cases (hn : n < 2 ^ 64) (hi : i ≤ p.totalPages + 1)
    (h : p.scan n (fuel + 1) i = some (r, ts)) (hts : ∀ t ∈ ts, t < p.totalPages) :
    (n ≤ p.totalPages ∧ p.totalPages < i + n ∧ r = none) ∨
    (n ≤ i ∧ i + n ≤ p.totalPages ∧ p.bitmapTest i = false ∧ r = some i) ∨
    ∃ i' ts', i < i' ∧ i' ≤ p.totalPages ∧ p.bitmapTest (i' - 1) = true ∧ (i' = i + 1 ∨ i < n) ∧
      (∀ k, i ≤ k → k + 1 < i' → p.bitmapTest k = false) ∧
      p.scan n fuel i' = some (r, ts') ∧ ∀ t ∈ ts', t < p.totalPages := by
  rw [scan, bound_eq hT hn] at h
  by_cases hin : i ≤ if n ≤ p.totalPages then p.totalPages - n else p.totalPages + 2 ^ 64 - n
  · rw [if_pos hin] at h
    by_cases ht : p.bitmapTest i = true
    · rw [if_pos ht] at h
      obtain ⟨⟨r', ts'⟩, hr, heq⟩ := Option.map_eq_some_iff.1 h
      obtain ⟨rfl, rfl⟩ := Prod.mk.inj heq
      have hlt : i < p.totalPages := hts _ List.mem_cons_self
      rw [Nat.mod_eq_of_lt (by omega)] at hr
      exact .inr (.inr ⟨i + 1, ts', by omega, hlt, ht, .inl rfl, fun k hk hk' => by omega, hr,
        fun t ht => hts t (List.mem_cons_of_mem _ ht)⟩)
    · rw [if_neg ht] at h
      have hclear : p.bitmapTest i = false := by simpa using ht
      obtain ⟨⟨⟨found, j⟩, us⟩, hq, hrest⟩ := Option.bind_eq_some_iff.1 h
      rcases Nat.lt_or_ge i n with hlt | hge
      · obtain rfl : found = false := probe_not_found hlt hq
        obtain ⟨⟨r', ts'⟩, hr, heq⟩ := Option.map_eq_some_iff.1 hrest
        obtain ⟨rfl, rfl⟩ := Prod.mk.inj heq
        replace hr : p.scan n fuel ((i + j + 1) % 2 ^ 64) = some (r', ts') := hr
        have hi' : i < p.totalPages := hts _ List.mem_cons_self
        obtain ⟨hj, hend, hset, hskip⟩ := probe_eq_some hT hlt hi' hq fun t ht =>
          hts t (List.mem_append_left _ (List.mem_cons_of_mem _ ht))
        rw [Nat.mod_eq_of_lt (by omega)] at hr
        refine .inr (.inr ⟨i + j + 1, ts', by omega, hend, hset, .inr hlt, fun k hk hk' => ?_, hr,
          fun t ht => hts t (List.mem_append_right _ ht)⟩)
        rcases Nat.eq_or_lt_of_le hk with rfl | hk
        · exact hclear
        · have hskip := hskip (k - i) (by omega) (by omega)
          rwa [Nat.add_sub_cancel' hk.le] at hskip
      · rw [probe_succ_of_ge hge] at hq
        obtain ⟨⟨rfl, rfl⟩, rfl⟩ := by simpa [Prod.ext_iff] using hq
        cases hrest
        have hle : n ≤ p.totalPages := hge.trans (hts _ List.mem_cons_self).le
        rw [if_pos hle] at hin
        exact .inr (.inl ⟨hge, by omega, hclear, rfl⟩)
  · rw [if_neg hin] at h
    cases h
    split_ifs at hin with hle
    · exact .inl ⟨hle, by omega, rfl⟩
    · omega

/-- **What a scan that returns has found**, if it tested no page past `total_pages`. -/
theorem scan_eq_some (hn : n < 2 ^ 64) (hi : i ≤ p.totalPages + 1)
    (h : p.scan n fuel i = some (r, ts)) (hts : ∀ t ∈ ts, t < p.totalPages) : n ≤ p.totalPages ∧
      (∀ c, i ≤ c → c < n → c + n ≤ p.totalPages →
        ∃ s, c ≤ s ∧ s < p.totalPages ∧ p.bitmapTest s = true) ∧
      (i < n ∨ p.bitmapTest (i - 1) = true → p.Chosen n i r) := by
  induction fuel generalizing i ts with
  | zero => cases h
  | succ fuel ih =>
    obtain ⟨hle, hover, rfl⟩ | ⟨hge, hroom, hclear, rfl⟩ |
      ⟨i', ts', hlt, hi', hset, hjump, hskip, hnext, hts'⟩ := scan_succ_cases hT hn hi h hts
    · exact ⟨hle, fun c hc _ hroom => by omega, fun _ d hd hb => by have := hb.2.1; omega⟩
    · refine ⟨by omega, fun c hc hcn => by omega, fun hbefore => ⟨le_rfl, ?_, fun d hd hdi => ?_⟩⟩
      · exact ⟨hge, hroom, hbefore.resolve_left (Nat.not_lt.2 hge), hclear⟩
      · omega
    · obtain ⟨hle, hstops, hchosen⟩ := ih (by omega) hnext hts'
      refine ⟨hle, fun c hc hcn hroom => ?_, fun _ => (hchosen (.inr hset)).of_later hlt.le ?_⟩
      · rcases Nat.lt_or_ge c i' with hci | hci
        · exact ⟨i' - 1, by omega, by omega, hset⟩
        · exact hstops c hci hcn hroom
      · -- A page that is skipped is used, or below `n`, or behind a clear one.
        rintro d hd hdi ⟨hnd, -, hbefore, hclear⟩
        have hne : d ≠ i' - 1 := by
          rintro rfl
          rw [hset] at hclear
          cases hclear
        rw [hskip (d - 1) (by omega) (by omega)] at hbefore
        cases hbefore

/-- **The scan returns**, if every inner loop is stopped by a used page. -/
theorem scan_of_stops (hn : n < 2 ^ 64) (h0 : 0 < n) (hle : n ≤ p.totalPages)
    (hstops : ∀ c, i ≤ c → c < n → c + n ≤ p.totalPages →
      ∃ s, c ≤ s ∧ s < p.totalPages ∧ p.bitmapTest s = true) (hi : i ≤ p.totalPages)
    (hfuel : p.totalPages < fuel + i) :
    ∃ r ts, p.scan n fuel i = some (r, ts) ∧ ∀ t ∈ ts, t < p.totalPages := by
  induction fuel generalizing i with
  | zero => omega
  | succ fuel ih =>
    rw [scan, bound_eq hT hn, if_pos hle]
    by_cases hin : i ≤ p.totalPages - n
    · rw [if_pos hin]
      have hlt : i < p.totalPages := by omega
      by_cases ht : p.bitmapTest i = true
      · obtain ⟨r, ts, hr, hts⟩ := ih (i := i + 1)
          (fun c hc => hstops c (by omega)) hlt (by omega)
        rw [if_pos ht, Nat.mod_eq_of_lt (by omega), hr]
        exact ⟨r, i :: ts, rfl, List.forall_mem_cons.2 ⟨hlt, hts⟩⟩
      · rw [if_neg ht]
        rcases Nat.lt_or_ge i n with hin | hge
        · obtain ⟨s, his, hs, hset⟩ := hstops i le_rfl hin (by omega)
          have hne : i ≠ s := fun heq => ht (heq ▸ hset)
          obtain ⟨j, us, hq, hus⟩ := probe_of_set hT hin (show i + 1 ≤ s by omega) hs hset
            (show s < fuel + 1 + (i + 1) by omega)
          obtain ⟨hj, hend, -⟩ := probe_eq_some hT hin hlt hq hus
          obtain ⟨r, ts, hr, hts⟩ := ih (i := i + j + 1)
            (fun c hc => hstops c (by omega)) hend (by omega)
          have hwrap : (i + j + 1) % 2 ^ 64 = i + j + 1 := Nat.mod_eq_of_lt (by omega)
          refine ⟨r, i :: us ++ ts, ?_, ?_⟩
          · rw [hq, Option.bind_some, if_neg Bool.false_ne_true, hwrap, hr]
            rfl
          · exact List.forall_mem_append.2 ⟨List.forall_mem_cons.2 ⟨hlt, hus⟩, hts⟩
        · rw [probe_succ_of_ge hge]
          exact ⟨some i, [i], rfl, by simpa using hlt⟩
    · exact ⟨none, [], by rw [if_neg hin], by simp⟩

end Scan

/-! ## The call -/

/-- It is the scan of `pmm_alloc`. -/
theorem clearScan_fst (p : Pmm) (i k : ℕ) : (p.clearScan i k).1 = p.firstClear i k := by
  induction k generalizing i with
  | zero => rfl
  | succ k ih =>
    rw [clearScan, firstClear]
    split_ifs
    · exact ih (i + 1)
    · rfl

theorem clearScan_tested (p : Pmm) (i k : ℕ) : ∀ t ∈ (p.clearScan i k).2, i ≤ t ∧ t < i + k := by
  induction k generalizing i with
  | zero => simp [clearScan]
  | succ k ih =>
    rw [clearScan]
    split_ifs
    · have hrest := ih (i + 1)
      exact List.forall_mem_cons.2 ⟨by omega, fun t ht => by have := hrest t ht; omega⟩
    · simp

/-- **Setting a run of bits**, if none of its numbers wraps. -/
theorem setRun_test (h : i + n ≤ 2 ^ 64) (j : ℕ) :
    (p.setRun i n).bitmapTest j = (p.bitmapTest j || decide (i ≤ j ∧ j < i + n)) := by
  rw [setRun, (foldl_bitmapSet _ p).2]
  congr 2
  refine propext ⟨fun hj => ?_, fun hj => ?_⟩
  · obtain ⟨k, hk, rfl⟩ := List.mem_map.1 hj
    rw [List.mem_range] at hk
    omega
  · exact List.mem_map.2 ⟨j - i, List.mem_range.2 (by omega), by omega⟩

theorem pageAddr_div (i : ℕ) : pageAddr i / 4096 = i % 2 ^ 52 := by
  rw [pageAddr]
  omega

/-- **A page that is taken is returned as it should be** exactly if it begins a run of clear pages
and its address has 64 bits. -/
theorem Call.right_iff {p' : Pmm} (hn : 0 < n) (h1 : 1 ≤ i) (hroom : i + n ≤ p.totalPages)
    (hclear : p.bitmapTest i = false) (hts : ∀ t ∈ ts, t < p.totalPages)
    (htest : ∀ j, p'.bitmapTest j = (p.bitmapTest j || decide (i ≤ j ∧ j < i + n)))
    (htot : p'.totalPages = p.totalPages) (hused : p'.usedPages = p.usedPages + .ofNat n) :
    Call.Right ⟨pageAddr i, p', ts⟩ p n ↔ p.ClearRun n i ∧ i < 2 ^ 52 := by
  have hset : p'.bitmapTest i = true := by
    rw [htest, hclear]
    simpa using hn
  constructor
  · intro h
    have hne : pageAddr i ≠ 0 := by
      intro hzero
      have hsame : p' = p := h.null hzero
      rw [hsame, hclear] at hset
      cases hset
    have htook : Took p p' n (i % 2 ^ 52) := pageAddr_div i ▸ h.took hne
    have hi : i % 2 ^ 52 = i := by
      have hlow : p.bitmapTest (i % 2 ^ 52) = false := htook.clear 0 hn
      have hnow : p'.bitmapTest (i % 2 ^ 52) = true := by
        rw [htook.test, decide_eq_true (by omega), Bool.or_true]
      rw [htest, hlow, Bool.false_or, decide_eq_true_eq] at hnow
      omega
    rw [hi] at htook
    exact ⟨⟨h1, hroom, htook.clear⟩, by omega⟩
  · rintro ⟨hrun, hi⟩
    have hdiv : pageAddr i / 4096 = i := by rw [pageAddr_div, Nat.mod_eq_of_lt hi]
    have hne : pageAddr i ≠ 0 := by
      intro hzero
      rw [hzero] at hdiv
      omega
    refine ⟨hts, fun _ => ?_, fun hzero => absurd hzero hne, iff_of_false hne ?_⟩
    · exact hdiv.symm ▸ ⟨hrun.2.2, htest, htot, hused⟩
    · rintro (rfl | hnone)
      · exact absurd hn (Nat.lt_irrefl 0)
      · exact hnone i hrun

/-- `NULL` is right exactly if there is no run. -/
theorem Call.right_null_iff (hn : 0 < n) (hts : ∀ t ∈ ts, t < p.totalPages) :
    Call.Right ⟨0, p, ts⟩ p n ↔ ∀ i, ¬p.ClearRun n i := by
  constructor
  · intro h
    exact (h.null_iff.1 rfl).resolve_left hn.ne'
  · intro h
    exact ⟨hts, fun hne => absurd rfl hne, fun _ => rfl, iff_of_true rfl (.inr h)⟩

theorem clearRun_one : p.ClearRun 1 i ↔ p.Free i := by
  refine and_congr_right fun _ => and_congr_right fun _ => ⟨fun h => h 0 one_pos, fun h k hk => ?_⟩
  obtain rfl : k = 0 := by omega
  exact h

theorem pmmAllocN_of_two_le (h2 : 2 ≤ n) (fuel : ℕ) :
    p.pmmAllocN n fuel = (p.scan n fuel 1).map (p.finish n) := by
  rw [pmmAllocN, if_neg (by omega), if_neg (by omega)]

/-- Where the loops are not entered, every number of rounds is enough. -/
theorem contiguous_iff_right {c : Call} (h : ∀ fuel, p.pmmAllocN n fuel = some c) :
    p.Contiguous n ↔ c.Right p n := by
  refine ⟨fun hall => hall.2 0 c (h 0), fun hright => ⟨⟨0, c, h 0⟩, fun fuel c' hc => ?_⟩⟩
  rwa [Option.some.inj (hc.symm.trans (h fuel))]

/-- **One page**: `pmm_alloc` is right unless the page it finds is past 64-bit addresses. -/
theorem contiguous_one_iff :
    p.Contiguous 1 ↔ ∀ i, p.Free i → (∀ j < i, ¬p.Free j) → i < 2 ^ 52 := by
  have hts : ∀ t ∈ (p.clearScan 1 (p.totalPages - 1)).2, t < p.totalPages := by
    intro t ht
    have htested := p.clearScan_tested 1 _ t ht
    omega
  cases ha : p.pmmAlloc with
  | none =>
    have hnone := not_free_of_pmmAlloc ha
    have hcall : ∀ fuel, p.pmmAllocN 1 fuel = some ⟨0, p, _⟩ := fun fuel => by
      rw [pmmAllocN, if_neg one_ne_zero, if_pos rfl, ha]
    rw [contiguous_iff_right hcall, Call.right_null_iff one_pos hts]
    exact iff_of_true (fun i hi => hnone i (clearRun_one.1 hi)) fun i hi => absurd hi (hnone i)
  | some r =>
    obtain ⟨g, p'⟩ := r
    obtain ⟨hg, hlow, htot, hused, htest⟩ := pmmAlloc_eq_some ha
    have hcall : ∀ fuel, p.pmmAllocN 1 fuel = some ⟨pageAddr g, p', _⟩ := fun fuel => by
      rw [pmmAllocN, if_neg one_ne_zero, if_pos rfl, ha]
    rw [contiguous_iff_right hcall, Call.right_iff one_pos hg.1 hg.2.1 hg.2.2 hts
      (fun j => by rw [htest]; congr 2; exact propext (by omega)) htot hused, clearRun_one]
    constructor
    · rintro ⟨-, hlt⟩ i hi hleast
      exact lt_of_le_of_lt (Nat.not_lt.1 fun hgi => hleast g hgi hg) hlt
    · exact fun h => ⟨hg, h g hg fun j hj hfree => absurd (hlow j hfree) (Nat.not_le.2 hj)⟩

/-- What the outer loop leaves is right exactly if it is a run, or if there is none. -/
theorem finish_right_iff (h2 : 2 ≤ n) (hT : p.totalPages < 2 ^ 64) (hr : p.Chosen n 1 r)
    (hts : ∀ t ∈ ts, t < p.totalPages) : (p.finish n (r, ts)).Right p n ↔
      (∀ c, p.Begins n c → (∀ d < c, ¬p.Begins n d) → p.ClearRun n c ∧ c < 2 ^ 52) ∧
        ((∀ c, ¬p.Begins n c) → ∀ i, ¬p.ClearRun n i) := by
  have hpos : ∀ {c}, p.Begins n c → 1 ≤ c := fun h => by have := h.1; omega
  cases r with
  | none =>
    have hnone : ∀ c, ¬p.Begins n c := fun c hc => hr c (hpos hc) hc
    rw [finish, Call.right_null_iff (by omega) hts]
    exact ⟨fun h => ⟨fun c hc => absurd hc (hnone c), fun _ => h⟩, fun h => h.2 hnone⟩
  | some c =>
    obtain ⟨h1, hc, hfirst⟩ := hr
    have hright : (p.finish n (some c, ts)).Right p n ↔ p.ClearRun n c ∧ c < 2 ^ 52 :=
      Call.right_iff (by omega) h1 hc.2.1 hc.2.2.2 hts
        (setRun_test (by have := hc.2.1; omega)) (foldl_bitmapSet _ p).1 rfl
    rw [hright]
    constructor
    · refine fun h => ⟨fun d hd hleast => ?_, fun hnone => absurd hc (hnone c)⟩
      obtain rfl : d = c := by
        rcases Nat.lt_trichotomy d c with hlt | heq | hgt
        · exact absurd hd (hfirst d (hpos hd) hlt)
        · exact heq
        · exact absurd hc (hleast c hgt)
      exact h
    · exact fun h => h.1 c hc fun d hd hb => hfirst d (hpos hb) hd hb

/-- **Two pages or more.** -/
theorem contiguous_iff_scannable (hT : p.totalPages < 2 ^ 64) (hn : n < 2 ^ 64) (h2 : 2 ≤ n) :
    p.Contiguous n ↔ p.Scannable n := by
  have hcall := fun fuel => pmmAllocN_of_two_le (p := p) h2 fuel
  constructor
  · rintro ⟨⟨fuel, c, hc⟩, hall⟩
    have hright := hall fuel c hc
    rw [hcall] at hc
    obtain ⟨⟨r, ts⟩, hr, rfl⟩ := Option.map_eq_some_iff.1 hc
    have hts : ∀ t ∈ ts, t < p.totalPages := by cases r <;> exact hright.below
    obtain ⟨hfits, hstops, hchosen⟩ := scan_eq_some hT hn (by omega) hr hts
    obtain ⟨hbegins, hmisses⟩ := (finish_right_iff h2 hT (hchosen (.inl h2)) hts).1 hright
    exact ⟨hfits, hstops, hbegins, hmisses⟩
  · intro h
    obtain ⟨r, ts, hr, hts⟩ := scan_of_stops hT hn (by omega) h.fits h.stops
      (by have := h.fits; omega) (show p.totalPages < p.totalPages + 1 by omega)
    obtain ⟨-, -, hchosen⟩ := scan_eq_some hT hn (by omega) hr hts
    have hright := (finish_right_iff h2 hT (hchosen (.inl h2)) hts).2 ⟨h.begins, h.misses⟩
    refine ⟨⟨p.totalPages, _, by rw [hcall, hr]; rfl⟩, fun fuel c hc => ?_⟩
    rw [hcall] at hc
    obtain ⟨r', hr', rfl⟩ := Option.map_eq_some_iff.1 hc
    have heq := (scan_mono (Nat.le_max_left fuel p.totalPages) hr').symm.trans
      (scan_mono (Nat.le_max_right ..) hr)
    rwa [Option.some.inj heq]

/-- **When `pmm_alloc_n` allocates a run of frames.** -/
theorem pmmAllocN_contiguous_iff (hT : p.totalPages < 2 ^ 64) (hn : n < 2 ^ 64) :
    p.Contiguous n ↔ n = 0 ∨
      n = 1 ∧ (∀ i, p.Free i → (∀ j < i, ¬p.Free j) → i < 2 ^ 52) ∨ 2 ≤ n ∧ p.Scannable n := by
  obtain rfl | rfl | h2 : n = 0 ∨ n = 1 ∨ 2 ≤ n := by omega
  · refine iff_of_true ((contiguous_iff_right fun _ => rfl).2 ?_) (.inl rfl)
    exact ⟨by simp, fun hne => absurd rfl hne, fun _ => rfl, iff_of_true rfl (.inl rfl)⟩
  · simp [contiguous_one_iff]
  · rw [contiguous_iff_scannable hT hn h2]
    simp [h2, show n ≠ 0 by omega, show n ≠ 1 by omega]

/-- Eight pages, the used ones given as a byte. -/
def eightPages (used : BitVec 8) : Pmm := ⟨fun _ => used, 8, 0⟩

/-- Behind page 1, which is used, there are clear pages. -/
theorem pmmAllocN_contiguous_iff_behindOne :
    (eightPages 3).totalPages < 2 ^ 64 ∧ (eightPages 3).Contiguous 2 := by
  have hfirst : (eightPages 3).Begins 2 2 := ⟨by decide, by decide, by decide, by decide⟩
  have hrun : (eightPages 3).ClearRun 2 2 := ⟨by decide, by decide, by decide⟩
  refine ⟨by decide, (pmmAllocN_contiguous_iff (by decide) (by decide)).2
    (.inr (.inr ⟨le_rfl, by decide, fun c h1 hc _ => ?_, fun c hc hleast => ?_, fun h => ?_⟩))⟩
  · exact ⟨c, le_rfl, by decide +revert, by decide +revert⟩
  · obtain rfl : c = 2 := Nat.le_antisymm (Nat.not_lt.1 fun hlt => hleast 2 hlt hfirst) hc.1
    exact ⟨hrun, by decide⟩
  · exact absurd hfirst (h 2)

/-- If no page is used the inner loop never ends. -/
theorem probe_eq_none (h : ∀ k, p.bitmapTest k = false) (hi : i < n) (fuel j : ℕ) :
    p.probe i n fuel j = none := by
  induction fuel generalizing j with
  | zero => rfl
  | succ fuel ih => rw [probe, if_pos hi, h, if_neg Bool.false_ne_true, ih, Option.map_none]

/-- **Three ways to fail**: page 3 is in use and is handed out behind page 2; pages 1 and 2 are
clear and are not found; and with no page in use the call does not return. -/
theorem pmmAllocN_fails : ((∃ c, (eightPages 10).pmmAllocN 2 3 = some c ∧ c.addr = 2 * 4096) ∧
        (eightPages 10).bitmapTest 3 = true ∧ ¬(eightPages 10).Contiguous 2) ∧
      ((∃ c, (eightPages 249).pmmAllocN 2 6 = some c ∧ c.addr = 0) ∧
        (eightPages 249).ClearRun 2 1 ∧ ¬(eightPages 249).Contiguous 2) ∧
      (∀ fuel, (eightPages 0).pmmAllocN 2 fuel = none) ∧ ¬(eightPages 0).Contiguous 2 := by
  have hclear : (eightPages 249).ClearRun 2 1 := ⟨by decide, by decide, by decide⟩
  have hscan : (eightPages 10).scan 2 3 1 = some (some 2, [1, 2]) := by decide +kernel
  have hscan' : (eightPages 249).scan 2 6 1 = some (none, [1, 2, 3, 4, 5, 6]) := by decide +kernel
  obtain ⟨c, hc, haddr⟩ : ∃ c, (eightPages 10).pmmAllocN 2 3 = some c ∧ c.addr = 2 * 4096 :=
    ⟨_, by rw [pmmAllocN_of_two_le le_rfl, hscan, Option.map_some], by decide⟩
  obtain ⟨c', hc', haddr'⟩ : ∃ c, (eightPages 249).pmmAllocN 2 6 = some c ∧ c.addr = 0 :=
    ⟨_, by rw [pmmAllocN_of_two_le le_rfl, hscan', Option.map_some], rfl⟩
  have hlost : ∀ fuel, (eightPages 0).pmmAllocN 2 fuel = none := by
    intro fuel
    cases fuel with
    | zero => rfl
    | succ fuel =>
      have hzero : ∀ k, (eightPages 0).bitmapTest k = false := fun k => BitVec.getLsbD_zero
      have hprobe := probe_eq_none hzero (show 1 < 2 by decide) (fuel + 1) 1
      rw [pmmAllocN_of_two_le le_rfl, scan, if_pos (by decide), hzero,
        if_neg Bool.false_ne_true, hprobe, Option.bind_none, Option.map_none]
  refine ⟨⟨⟨c, hc, haddr⟩, by decide, fun h => ?_⟩, ⟨⟨c', hc', haddr'⟩, hclear, fun h => ?_⟩,
    hlost, ?_⟩
  · have htook := (h.2 3 c hc).took (by rw [haddr]; decide)
    rw [haddr] at htook
    exact absurd (htook.clear 1 (by decide)) (by decide)
  · exact ((h.2 6 c' hc').null_iff.1 haddr').elim (by decide) fun hnone => hnone 1 hclear
  · rintro ⟨⟨fuel, c, hc⟩, -⟩
    rw [hlost] at hc
    cases hc

end Hvos.Memory.Pmm
