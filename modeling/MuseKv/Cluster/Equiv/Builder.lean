import MuseKv.Cluster.Builder
import MuseKv.Cluster.Equiv.Building

/-!
# The cluster builder on documented configurations

The scan of the first line stops at the last digit that is not `0` (`scanCount_digits`), so it finds
the number of nodes just when that digit is the first one.  The builder then sends every node the
shares of all nodes, those of `distribute.cpp` (`honours_iff`).
-/

namespace MuseKv

open General Kvstore

namespace Cluster

/-! ### The scan for the number of nodes -/

/-- The value of a string of digits. -/
def value (s : Str) : Int := s.foldl (fun a c => 10 * a + digitVal c) 0

theorem value_cons (c : UInt8) (s : Str) :
    value (c :: s) = digitVal c * 10 ^ s.length + value s := by
  have hfold : ∀ (s : Str) (a : Int), s.foldl (fun a c => 10 * a + digitVal c) a
      = a * 10 ^ s.length + value s := by
    intro s
    induction s with
    | nil => simp [value]
    | cons c s ih =>
      intro a
      rw [value, List.foldl_cons, List.foldl_cons, ih, ih, List.length_cons]
      ring
  rw [value, List.foldl_cons, hfold]
  ring

theorem value_bounds {s : Str} (hs : ∀ c ∈ s, isDigit c = true) :
    0 ≤ value s ∧ value s < 10 ^ s.length := by
  induction s with
  | nil => decide
  | cons c s ih =>
    obtain ⟨hc, hs⟩ := List.forall_mem_cons.mp hs
    obtain ⟨hlo, hhi⟩ := ih hs
    obtain ⟨hd₀, hd₉⟩ := digitVal_bounds hc
    have hpow : (0 : Int) < 10 ^ s.length := by positivity
    rw [value_cons, List.length_cons, pow_succ]
    constructor
    · positivity
    · nlinarith

/-- `atoi` of a string of digits. -/
theorem atoi_digits {c : UInt8} {s : Str} (hs : ∀ d ∈ c :: s, isDigit d = true)
    (hlt : value (c :: s) < 2 ^ 31) : atoi (c :: s) = value (c :: s) := by
  obtain ⟨hsp, hm, hp⟩ := isSpace_of_isDigit (hs c (List.mem_cons_self ..))
  have hdrop : (c :: s).dropWhile isSpace = c :: s := List.dropWhile_cons_of_neg (by simp [hsp])
  have htake : (c :: s).takeWhile isDigit = c :: s := List.takeWhile_eq_self_iff.mpr hs
  have hneg : ((c :: s).head? == some (byte '-')) = false := by simp [hm]
  have hpos : ((c :: s).head? == some (byte '+')) = false := by simp [hp]
  have hbounds := value_bounds hs
  rw [atoi]
  simp only [hdrop, hneg, hpos, Bool.or_self, Bool.false_eq_true, ↓reduceIte, htake]
  rw [← value, min_eq_right (by omega), max_eq_right (by omega)]
  exact wrap32_of_bounds (by omega) hlt

/-- **The scan over the digits of a number** leaves its last digit that is not `0`, with the zeros
behind it. -/
theorem scanCount_digits {s : Str} (hs : ∀ c ∈ s, isDigit c = true) (hlt : value s < 2 ^ 31)
    (n : Int) : (value s = 0 ∧ scanCount s n = n) ∨ ∃ (d q : Int) (t : ℕ),
      1 ≤ d ∧ d ≤ 9 ∧ 0 ≤ q ∧ value s = (10 * q + d) * 10 ^ t ∧ scanCount s n = d * 10 ^ t := by
  induction s generalizing n with
  | nil => exact Or.inl ⟨rfl, rfl⟩
  | cons c s ih =>
    obtain ⟨hc, hs'⟩ := List.forall_mem_cons.mp hs
    obtain ⟨hd₀, hd₉⟩ := digitVal_bounds hc
    obtain ⟨hlo, hhi⟩ := value_bounds hs'
    have hpow : (0 : Int) < 10 ^ s.length := by positivity
    have hval := value_cons c s
    have hnonneg : 0 ≤ digitVal c * 10 ^ s.length := by positivity
    rw [scanCount, if_pos hc, atoi_digits hs hlt]
    rcases ih hs' (by omega) (if value (c :: s) = 0 then n else value (c :: s)) with
      ⟨hzero, hscan⟩ | ⟨d, q, t, hd, hd', hq, heq, hscan⟩
    · -- the digits behind this one are zeros
      rw [hscan]
      rw [hzero, add_zero] at hval
      by_cases hz : value (c :: s) = 0
      · exact Or.inl ⟨hz, by rw [if_pos hz]⟩
      · refine Or.inr ⟨digitVal c, 0, s.length, ?_, hd₉, le_rfl, by rw [hval]; ring, ?_⟩
        · rcases hd₀.eq_or_lt with h | h
          · rw [← h, zero_mul] at hval
            exact absurd hval hz
          · exact h
        · rw [if_neg hz, hval]
    · -- this digit stands in front of the last one that is not zero
      have ht : t < s.length := by
        by_contra hge
        have hle : (10 : Int) ^ s.length ≤ 10 ^ t := pow_le_pow_right₀ (by norm_num) (not_lt.mp hge)
        have hle' : (10 : Int) ^ t ≤ (10 * q + d) * 10 ^ t :=
          le_mul_of_one_le_left (by positivity) (by omega)
        omega
      obtain ⟨m, hm⟩ := Nat.exists_eq_add_of_lt ht
      refine Or.inr ⟨d, q + digitVal c * 10 ^ m, t, hd, hd', by positivity, ?_, hscan⟩
      rw [hval, heq, hm, pow_add, pow_add]
      ring

/-- Every number that the scan finds fits an `int`. -/
theorem scanCount_lt (s : Str) {n : Int} (hn : n < 2 ^ 31) : scanCount s n < 2 ^ 31 := by
  induction s generalizing n with
  | nil => exact hn
  | cons c s ih =>
    rw [scanCount]
    refine ih ?_
    split_ifs
    · exact hn
    · exact (wrap32_bounds _).2
    · exact hn

/-- The numbers with one digit that is not `0`: the first. -/
def OneDigit (n : ℕ) : Prop := ∃ d k, 1 ≤ d ∧ d ≤ 9 ∧ n = d * 10 ^ k

/-- The last digit that is not zero, with the zeros behind it, is the number just when there is no
other such digit. -/
theorem oneDigit_iff {n : ℕ} {d q : Int} {t : ℕ} (hd : 1 ≤ d) (hd' : d ≤ 9) (hq : 0 ≤ q)
    (hn : (n : Int) = (10 * q + d) * 10 ^ t) : d * 10 ^ t = n ↔ OneDigit n := by
  have hpow : (0 : Int) < 10 ^ t := by positivity
  constructor
  · intro h
    refine ⟨d.toNat, t, by omega, by omega, ?_⟩
    zify
    rw [Int.toNat_of_nonneg (by omega), h]
  · rintro ⟨d', k, h₁, h₉, rfl⟩
    push_cast at hn ⊢
    -- the zeros behind the digits are compared
    rcases lt_trichotomy t k with hlt | rfl | hlt
    · -- the digit would be a multiple of ten
      obtain ⟨m, rfl⟩ := Nat.exists_eq_add_of_lt hlt
      have heq : (10 * q + d) = d' * 10 ^ (m + 1) := by
        refine mul_right_cancel₀ hpow.ne' ?_
        rw [← hn]
        ring
      rw [pow_succ, ← mul_assoc] at heq
      omega
    · have heq : (10 * q + d) = d' := mul_right_cancel₀ hpow.ne' hn.symm
      obtain rfl : (d' : Int) = d := by omega
      rfl
    · obtain ⟨m, rfl⟩ := Nat.exists_eq_add_of_lt hlt
      have heq : (d' : Int) = (10 * q + d) * 10 ^ (m + 1) := by
        refine mul_right_cancel₀ (b := (10 : Int) ^ k) (by positivity) ?_
        rw [hn]
        ring
      -- and here the other digit would be at least ten
      have hge : (10 : Int) ^ (m + 1) ≥ 10 := by
        rw [pow_succ]
        have : (0 : Int) < 10 ^ m := by positivity
        omega
      nlinarith

/-- The first line of a configuration. -/
def countLine (n : ℕ) : Str := lit "cluster " ++ toStr n

/-- **The scan finds the number of nodes** just when it fits an `int` and has one digit that is not
`0`. -/
theorem scanCount_countLine {n : ℕ} (hn : 0 < n) :
    scanCount (countLine n) 0 = n ↔ OneDigit n ∧ n < 2 ^ 31 := by
  by_cases hlt : n < 2 ^ 31
  · have hcut : scanCount (countLine n) 0 = scanCount (toStr n) 0 := rfl
    have hval : value (toStr n) = n := foldl_digits n
    have hdigits : ∀ c ∈ toStr n, isDigit c = true := fun c hc => isDigit_of_mem_digits hc
    rw [hcut, and_iff_left hlt]
    rcases scanCount_digits hdigits (by rw [hval]; exact_mod_cast hlt) 0 with
      ⟨hzero, -⟩ | ⟨d, q, t, hd, hd', hq, heq, hscan⟩
    · omega
    · rw [hscan]
      exact oneDigit_iff hd hd' hq (hval ▸ heq)
  · have hscan := scanCount_lt (countLine n) (n := 0) (by norm_num)
    exact iff_of_false (by omega) fun h => hlt h.2

/-! ### The tables of a configuration -/

/-- The lines of a configuration. -/
def configuration (addrs : List Address) : List Str :=
  countLine addrs.length :: addrs.map Address.text

/-- The message about an address that stands in a table, behind a word. -/
def entry (word : Str) (n i : ℕ) (a : Address) : Str := word ++ a.text ++ lit " " ++ slotsOf n i

theorem info_text (word : Str) (n i : ℕ) (a : Address) :
    word ++ info a.text (shareStart totalSlotNum n i : ℕ) ((shareStop totalSlotNum n i : ℕ) - 1)
      = entry word n i a := by
  simp only [info, entry, slotsOf, List.append_assoc]

/-- A table whose first cells hold the messages about some addresses. -/
def table (word : Str) (n : ℕ) (done : List Address) : List Str :=
  done.mapIdx (entry word n) ++ List.replicate (n - done.length) []

theorem length_table {word : Str} {n : ℕ} {done : List Address} (h : done.length ≤ n) :
    (table word n done).length = n := by
  rw [table, List.length_append, List.length_mapIdx, List.length_replicate]
  omega

/-- The next cell of a table. -/
theorem table_set {word : Str} {n : ℕ} {done : List Address} (h : done.length < n) (a : Address) :
    (table word n done).set done.length (entry word n done.length a) = table word n (done ++ [a]) := by
  have hroom : n - done.length = n - (done.length + 1) + 1 := by omega
  rw [table, table, List.set_append_right _ _ (by simp), List.length_mapIdx, Nat.sub_self, hroom,
    List.replicate_succ, List.set_cons_zero, List.mapIdx_concat, List.append_assoc, List.length_append,
    List.length_singleton]
  rfl

/-- The variables after some of the addresses. -/
structure Filled (n : ℕ) (done : List Address) (r : Reading) : Prop where
  clusterNum : r.clusterNum = n
  eachSlot : r.eachSlot = totalSlotNum / n
  addrList : r.addrList = table (lit "clust ") n done
  myList : r.myList = table (lit "myinfo ") n done

/-- The variables in front of the next address. -/
structure Reads (n : ℕ) (done : List Address) (r : Reading) : Prop extends Filled n done r where
  lineNum : r.lineNum = done.length + 1
  start : r.start = (shareStart totalSlotNum n done.length : ℕ)

/-- **The first line** makes room for as many addresses as it counts. -/
theorem readLine_count {n : ℕ} (hn : 0 < n) (h : scanCount (countLine n) 0 = n) :
    ∃ r, readLine {} (countLine n) = some r ∧ Reads n [] r := by
  have hread : readLine {} (countLine n) = some
      { clusterNum := n
        eachSlot := totalSlotNum / n
        addrList := List.replicate n []
        myList := List.replicate n []
        lineNum := 1 } := by
    rw [readLine, if_pos rfl]
    simp only [h]
    rw [if_neg (by omega), Int.toNat_natCast]
  have htable : ∀ word, List.replicate n [] = table word n [] := by
    intro word
    rw [table, List.mapIdx_nil, List.nil_append, List.length_nil, Nat.sub_zero]
  refine ⟨_, hread, ⟨⟨rfl, rfl, htable _, htable _⟩, rfl, ?_⟩⟩
  rw [List.length_nil, shareStart, Nat.mul_zero]
  rfl

variable {n : ℕ} {done : List Address} {r : Reading}

/-- The cell of an address. -/
theorem Reads.store (h : Reads n done r) (hlt : done.length < n) (a : Address) (last : Int)
    (hlast : last = (shareStop totalSlotNum n done.length : ℕ) - 1) :
    ∃ r', r.store a.text last = some r' ∧ Filled n (done ++ [a]) r' ∧ r'.lineNum = r.lineNum ∧
      r'.start = r.start := by
  have hindex : r.lineNum - 1 = done.length := by rw [h.lineNum, Nat.add_sub_cancel]
  have hcell : ∀ word, word ++ info a.text r.start last = entry word n done.length a := by
    intro word
    rw [h.start, hlast, info_text]
  have hroom : r.lineNum - 1 < r.addrList.length := by
    rw [hindex, h.addrList, length_table hlt.le]
    exact hlt
  refine ⟨_, if_pos hroom, ⟨h.clusterNum, h.eachSlot, ?_, ?_⟩, rfl, rfl⟩
  · change r.addrList.set (r.lineNum - 1) (lit "clust " ++ info a.text r.start last) = _
    rw [hindex, hcell, h.addrList, table_set hlt]
  · change r.myList.set (r.lineNum - 1) (lit "myinfo " ++ info a.text r.start last) = _
    rw [hindex, hcell, h.myList, table_set hlt]

/-- **An address that is not the last** gets a share of its own. -/
theorem Reads.next (h : Reads n done r) (hlt : done.length + 1 < n) (a : Address) :
    ∃ r', readLine r a.text = some r' ∧ Reads n (done ++ [a]) r' := by
  have hstop : r.start + r.eachSlot = (shareStop totalSlotNum n done.length : ℕ) := by
    rw [h.start, h.eachSlot, shareStart, shareStop, if_neg hlt.ne]
    push_cast
    ring
  obtain ⟨r', hstore, hfilled, hline, hstart⟩ :=
    h.store (by omega) a (r.start + r.eachSlot - 1) (by rw [hstop])
  have hnum : ¬ r.lineNum = 0 := by rw [h.lineNum]; omega
  have hlast : ¬ (r.lineNum : Int) = r.clusterNum := by rw [h.lineNum, h.clusterNum]; omega
  have hread : readLine r a.text = some
      { r' with start := r'.start + r'.eachSlot, lineNum := r'.lineNum + 1 } := by
    rw [readLine, if_neg hnum, if_neg hlast, hstore, Option.map_some]
  refine ⟨_, hread, ⟨⟨hfilled.clusterNum, hfilled.eachSlot, hfilled.addrList, hfilled.myList⟩, ?_, ?_⟩⟩
  · change r'.lineNum + 1 = _
    rw [hline, h.lineNum, List.length_append, List.length_singleton]
  · change r'.start + r'.eachSlot = _
    rw [hstart, hfilled.eachSlot, ← h.eachSlot, hstop, List.length_append, List.length_singleton,
      shareStop, if_neg hlt.ne, shareStart]

/-- **The last address** gets what is left. -/
theorem Reads.last (h : Reads n done r) (hlt : done.length + 1 = n) (a : Address) :
    ∃ r', readLine r a.text = some r' ∧ Filled n (done ++ [a]) r' := by
  obtain ⟨r', hstore, hfilled, -, -⟩ := h.store (by omega) a (totalSlotNum - 1)
    (by rw [shareStop, if_pos hlt])
  have hnum : ¬ r.lineNum = 0 := by rw [h.lineNum]; omega
  have hlast : (r.lineNum : Int) = r.clusterNum := by rw [h.lineNum, h.clusterNum, ← hlt]
  exact ⟨r', by rw [readLine, if_neg hnum, if_pos hlast, hstore], hfilled⟩

/-- **All addresses** fill the tables. -/
theorem Reads.run {todo : List Address} (htodo : todo ≠ []) :
    ∀ {done : List Address} {r : Reading}, Reads n done r → done.length + todo.length = n →
      ∃ r', (todo.map Address.text).foldlM readLine r = some r' ∧ Filled n (done ++ todo) r' := by
  induction todo with
  | nil => exact absurd rfl htodo
  | cons a todo ih =>
    intro done r h hlen
    rw [List.map_cons, List.foldlM_cons]
    rw [List.length_cons] at hlen
    rcases eq_or_ne todo [] with rfl | hne
    · obtain ⟨r', hr', hfilled⟩ := h.last (by simpa using hlen) a
      exact ⟨r', by rw [hr']; rfl, hfilled⟩
    · have hpos := List.length_pos_of_ne_nil hne
      obtain ⟨r', hr', hreads⟩ := h.next (by omega) a
      obtain ⟨r'', hr'', hfilled⟩ := ih hne hreads (by simp; omega)
      rw [List.append_assoc] at hfilled
      exact ⟨r'', by rw [hr']; exact hr'', hfilled⟩

/-- Behind the first line, the number of nodes stays. -/
theorem clusterNum_of_foldlM {lines : List Str} :
    ∀ {r r' : Reading}, r.lineNum ≠ 0 → lines.foldlM readLine r = some r' →
      r'.clusterNum = r.clusterNum := by
  have hstore : ∀ {r r' : Reading} {lr : Str} {last : Int}, r.store lr last = some r' →
      r'.clusterNum = r.clusterNum ∧ r'.lineNum = r.lineNum := by
    intro r r' lr last h
    rw [Reading.store] at h
    split_ifs at h
    obtain rfl := Option.some.inj h
    exact ⟨rfl, rfl⟩
  induction lines with
  | nil =>
    intro r r' _ h
    obtain rfl := Option.some.inj h
    rfl
  | cons lr lines ih =>
    intro r r' hne h
    rw [List.foldlM_cons] at h
    obtain ⟨r₁, hr₁, h⟩ := Option.bind_eq_some_iff.mp h
    rw [readLine, if_neg hne] at hr₁
    split_ifs at hr₁
    · obtain ⟨hnum, hline⟩ := hstore hr₁
      rw [ih (hline ▸ hne) h, hnum]
    · obtain ⟨r₂, hr₂, rfl⟩ := Option.map_eq_some_iff.mp hr₁
      exact (ih (Nat.succ_ne_zero _) h).trans (hstore hr₂).1

/-! ### The connections -/

theorem table_full (word : Str) (addrs : List Address) :
    table word addrs.length addrs = addrs.mapIdx (entry word addrs.length) := by
  rw [table, Nat.sub_self, List.replicate_zero, List.append_nil]

/-- The words that `strtok` finds in an entry. -/
theorem tokens_entry (n i : ℕ) (a : Address) :
    cString (entry (lit "clust ") n i a) = entry (lit "clust ") n i a ∧
      tokens isBlank (entry (lit "clust ") n i a) = lit "clust" :: a.ip :: a.port :: words (slotsOf n i) := by
  have hnum : ∀ x : Int, (0 : UInt8) ∉ toStr x := not_mem_toStr (by decide) (by decide)
  constructor
  · refine cString_of_not_mem ?_
    have hnul := a.nul
    simp only [entry, slotsOf, Address.text, List.mem_append, List.mem_cons, not_or] at hnul ⊢
    exact ⟨⟨⟨by decide, hnul.1, by decide, hnul.2⟩, by decide⟩, ⟨hnum _, by decide⟩, hnum _⟩
  · have hform : entry (lit "clust ") n i a = lit "clust" ++ byte ' ' ::
        (a.text ++ byte ' ' :: slotsOf n i) := by
      simp [entry, lit]
    rw [← words_eq_tokens, hform, words_cons_blank (by decide) (not_blank_of_all (by decide)),
      words_append_blank,
      a.words_text]
    rfl

/-- The address that `connect` gets. -/
def peer (a : Address) : Peer := (a.ip, atoi a.port)

/-- **The connection to a node** whose entry fits the buffer and who replies no `cluster fail`. -/
theorem connectTo_eq_some {addrs : List Address} {r : Reading} (h : Filled addrs.length addrs r)
    {replies : ℕ → ℕ → Str} {i : ℕ} {a : Address} (ha : addrs[i]? = some a) {c : Connection} :
    connectTo r replies i = some c ↔
      (entry (lit "clust ") addrs.length i a).length < 1000 ∧
        (∀ j < addrs.length, cString (replies i j) ≠ lit "cluster fail") ∧
        c = ⟨peer a, addrs.mapIdx (fun j => clusterMessage addrs.length i j) ++ [lit "quit"]⟩ := by
  obtain ⟨hcstr, htokens⟩ := tokens_entry addrs.length i a
  have haddr : r.addrList[i]? = some (entry (lit "clust ") addrs.length i a) := by
    rw [h.addrList, table_full, List.getElem?_mapIdx, ha, Option.map_some]
  have hcoms : ((List.range r.clusterNum.toNat).mapM fun j =>
      if i = j then r.myList[j]? else r.addrList[j]?)
        = some (addrs.mapIdx fun j => clusterMessage addrs.length i j) := by
    rw [mapM_range_eq_some_iff, h.clusterNum, Int.toNat_natCast, List.length_mapIdx]
    refine ⟨rfl, fun j _ => ?_⟩
    rw [h.addrList, h.myList, table_full, table_full, List.getElem?_mapIdx, List.getElem?_mapIdx,
      List.getElem?_mapIdx]
    cases addrs[j]? with
    | none => simp
    | some b =>
      simp only [Option.map_some, clusterMessage, entry, eq_comm (a := i)]
      split_ifs
      · rfl
      · rfl
  rw [connectTo, haddr, Option.bind_some, hcstr, htokens, hcoms, h.clusterNum, Int.toNat_natCast]
  simp only [List.getElem?_cons_succ, List.getElem?_cons_zero, Option.bind_some]
  split_ifs with hlen hfail
  · obtain ⟨j, hj, hreply⟩ := hfail
    exact iff_of_false (by simp) fun hand => hand.2.1 j hj hreply
  · rw [Option.some.injEq, eq_comm]
    exact ⟨fun heq => ⟨hlen, fun j hj hreply => hfail ⟨j, hj, hreply⟩, heq⟩, fun hand => hand.2.2⟩
  · exact iff_of_false (by simp) fun hand => hlen hand.1

/-! ### The promise of the builder -/

/-- Ranges that cut the slots into consecutive pieces, those of `distribute.cpp`. -/
structure Splits (n : ℕ) (range : ℕ → Int × Int) : Prop where
  first : (range 0).1 = 0
  next : ∀ k, k + 1 < n → (range (k + 1)).1 = (range k).2 + 1
  last : (range (n - 1)).2 = totalSlotNum - 1
  unique : ∀ x : Int, 0 ≤ x → x ≤ totalSlotNum - 1 →
    ∃! k, k < n ∧ (range k).1 ≤ x ∧ x ≤ (range k).2
  distribute : ∀ cfg : Distribute.Config, cfg.length = n → ∀ k < n,
    range k = (Distribute.slotStart cfg k, Distribute.slotEnd cfg k)

/-- The message that tells the node `i` of the node `j` and of its range. -/
def announcement (range : ℕ → Int × Int) (i j : ℕ) (a : Address) : Str :=
  (if j = i then lit "myinfo " else lit "clust ") ++ info a.text (range j).1 (range j).2

/-- **The builder honours a configuration.**  It connects to every address, in their order, and tells
every node of all nodes and their ranges, which split the slots. -/
def Honours (addrs : List Address) (replies : ℕ → ℕ → Str) : Prop :=
  ∃ conns range, build (configuration addrs) replies = some conns ∧
    conns.map Connection.node = addrs.map peer ∧
    (∀ i c, conns[i]? = some c → c.coms = addrs.mapIdx (announcement range i) ++ [lit "quit"]) ∧
    Splits addrs.length range

/-- The shares as ranges. -/
def shareRange (n k : ℕ) : Int × Int :=
  ((shareStart totalSlotNum n k : ℕ), (shareStop totalSlotNum n k : ℕ) - 1)

/-- **The shares split the slots.** -/
theorem splits_shareRange {n : ℕ} (hn : 0 < n) : Splits n (shareRange n) where
  first := by rw [shareRange, shareStart, Nat.mul_zero, Nat.cast_zero]
  next k hk := by
    change ((shareStart totalSlotNum n (k + 1) : ℕ) : Int) = (shareStop totalSlotNum n k : ℕ) - 1 + 1
    rw [shareStart, shareStop, if_neg hk.ne]
    omega
  last := by rw [shareRange, shareStop, if_pos (by omega)]
  unique x h₀ h₁ := by
    obtain ⟨m, rfl⟩ := Int.eq_ofNat_of_zero_le h₀
    have hin : ∀ k, InShare totalSlotNum n k m ↔
        (shareRange n k).1 ≤ m ∧ (m : Int) ≤ (shareRange n k).2 := by
      intro k
      rw [InShare, shareRange]
      omega
    obtain ⟨k, hk, hmem⟩ := exists_share hn (show m < totalSlotNum by omega)
    refine ⟨k, ⟨hk, (hin k).mp hmem⟩, fun l hl => ?_⟩
    exact ((hin l).mpr hl.2).unique hl.1 hk hmem
  distribute cfg hcfg k _ := by
    rw [shareRange, Distribute.slotStart_eq, Distribute.slotEnd_eq, hcfg]

/-- Once the count is right, the tables are. -/
theorem exists_filled {addrs : List Address} (hne : addrs ≠ [])
    (hscan : scanCount (countLine addrs.length) 0 = addrs.length) :
    ∃ r, (configuration addrs).foldlM readLine {} = some r ∧ Filled addrs.length addrs r := by
  obtain ⟨r, hr, hreads⟩ := readLine_count (List.length_pos_of_ne_nil hne) hscan
  obtain ⟨r', hr', hfilled⟩ := hreads.run hne (by rw [List.length_nil, zero_add])
  refine ⟨r', ?_, hfilled⟩
  rw [configuration, List.foldlM_cons, hr]
  exact hr'

/-- Only the first line is counted. -/
theorem clusterNum_of_configuration {addrs : List Address} {r : Reading}
    (h : (configuration addrs).foldlM readLine {} = some r) :
    0 < scanCount (countLine addrs.length) 0 ∧
      r.clusterNum = scanCount (countLine addrs.length) 0 := by
  rw [configuration, List.foldlM_cons] at h
  obtain ⟨r₁, hr₁, h⟩ := Option.bind_eq_some_iff.mp h
  rw [readLine, if_pos rfl] at hr₁
  dsimp only at hr₁
  split_ifs at hr₁ with hle
  obtain rfl := Option.some.inj hr₁
  exact ⟨not_le.mp hle, clusterNum_of_foldlM Nat.one_ne_zero h⟩

/-- **The builder honours a configuration if and only if** the number of nodes has one digit that is not
`0` and fits an `int`, every entry fits its buffer, and no node replies `cluster fail`. -/
theorem honours_iff {addrs : List Address} (hne : addrs ≠ []) (replies : ℕ → ℕ → Str) :
    Honours addrs replies ↔ OneDigit addrs.length ∧ addrs.length < 2 ^ 31 ∧
      (∀ i a, addrs[i]? = some a → (entry (lit "clust ") addrs.length i a).length < 1000) ∧
      ∀ i < addrs.length, ∀ j < addrs.length, cString (replies i j) ≠ lit "cluster fail" := by
  have hpos := List.length_pos_of_ne_nil hne
  constructor
  · rintro ⟨conns, range, hbuild, hnodes, -⟩
    have hlen : conns.length = addrs.length := by
      rw [← List.length_map Connection.node, hnodes, List.length_map]
    obtain ⟨r, hr, hconns⟩ := Option.bind_eq_some_iff.mp hbuild
    obtain ⟨hnum, hconns⟩ := mapM_range_eq_some_iff.mp hconns
    -- there are as many connections as the first line counts
    have hscan : scanCount (countLine addrs.length) 0 = addrs.length := by
      obtain ⟨hpos', hkept⟩ := clusterNum_of_configuration hr
      omega
    obtain ⟨hdigit, hlt⟩ := (scanCount_countLine hpos).mp hscan
    obtain ⟨r', hr', hfilled⟩ := exists_filled hne hscan
    obtain rfl := Option.some.inj (hr.symm.trans hr')
    have hcond : ∀ i a, addrs[i]? = some a → (entry (lit "clust ") addrs.length i a).length < 1000 ∧
        ∀ j < addrs.length, cString (replies i j) ≠ lit "cluster fail" := by
      intro i a ha
      have hi : i < conns.length := hlen ▸ (List.getElem?_eq_some_iff.mp ha).1
      have hc := hconns i (hnum ▸ hi)
      rw [List.getElem?_eq_getElem hi, connectTo_eq_some hfilled ha] at hc
      exact ⟨hc.1, hc.2.1⟩
    exact ⟨hdigit, hlt, fun i a ha => (hcond i a ha).1,
      fun i hi => (hcond i _ (List.getElem?_eq_getElem hi)).2⟩
  · rintro ⟨hdigit, hlt, hlong, hreplies⟩
    obtain ⟨r, hr, hfilled⟩ := exists_filled hne ((scanCount_countLine hpos).mpr ⟨hdigit, hlt⟩)
    refine ⟨addrs.mapIdx fun i a =>
        ⟨peer a, addrs.mapIdx (fun j => clusterMessage addrs.length i j) ++ [lit "quit"]⟩,
      shareRange addrs.length, ?_, ?_, ?_, splits_shareRange hpos⟩
    · rw [build, hr, Option.bind_some, mapM_range_eq_some_iff, List.length_mapIdx, hfilled.clusterNum,
        Int.toNat_natCast]
      refine ⟨rfl, fun i hi => ?_⟩
      have ha := List.getElem?_eq_getElem hi
      rw [List.getElem?_mapIdx, ha, Option.map_some, connectTo_eq_some hfilled ha]
      exact ⟨hlong i _ ha, hreplies i hi, rfl⟩
    · ext1 i
      rw [List.getElem?_map, List.getElem?_mapIdx, List.getElem?_map]
      cases addrs[i]? with
      | none => rfl
      | some a => rfl
    · intro i c hc
      rw [List.getElem?_mapIdx] at hc
      obtain ⟨a, -, rfl⟩ := Option.map_eq_some_iff.mp hc
      have hsame : (fun j => clusterMessage addrs.length i j)
          = announcement (shareRange addrs.length) i := by
        ext1 j
        ext1 b
        rw [announcement, shareRange, info_text, clusterMessage, entry]
      rw [hsame]

/-! ### Three nodes and twelve nodes -/

def threeNodes : List Address := [localPort 5001, localPort 5004, localPort 5007]

/-- The example of a cluster of three nodes. -/
theorem honours_threeNodes : threeNodes ≠ [] ∧ Honours threeNodes fun _ _ => [] := by
  have hne : threeNodes ≠ [] := List.cons_ne_nil _ _
  refine ⟨hne, (honours_iff hne _).mpr ⟨⟨3, 0, by decide, by decide, rfl⟩, by decide, ?_, ?_⟩⟩
  · intro i a ha
    have hi : i < 3 := (List.getElem?_eq_some_iff.mp ha).1
    interval_cases i
    · obtain rfl := Option.some.inj ha
      decide
    · obtain rfl := Option.some.inj ha
      decide
    · obtain rfl := Option.some.inj ha
      decide
  · intro i _ j _
    decide

def twelveNodes : List Address := (List.range 12).map fun i => localPort (5001 + i)

/-- **Twelve nodes are taken for two**, the first address and the last. -/
theorem not_honours_twelveNodes :
    (build (configuration twelveNodes) fun _ _ => []).map (List.map Connection.node)
        = some [(lit "127.0.0.1", 5001), (lit "127.0.0.1", 5012)] ∧
      ¬ ∀ addrs : List Address, addrs ≠ [] → Honours addrs fun _ _ => [] := by
  have hbuild : (build (configuration twelveNodes) fun _ _ => []).map (List.map Connection.node)
      = some [(lit "127.0.0.1", 5001), (lit "127.0.0.1", 5012)] := by
    decide +kernel
  refine ⟨hbuild, fun h => ?_⟩
  obtain ⟨conns, range, hconns, hnodes, -⟩ := h twelveNodes (by decide)
  rw [hconns, Option.map_some, hnodes, Option.some.injEq] at hbuild
  have hlen := congrArg List.length hbuild
  rw [List.length_map] at hlen
  exact absurd hlen (by decide)

end Cluster

end MuseKv
