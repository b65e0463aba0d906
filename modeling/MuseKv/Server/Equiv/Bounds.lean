import MuseKv.Kvstore.Equiv.Loops
import MuseKv.Server.Bounds
import MuseKv.Server.Equiv.Setup

/-!
# Which messages make a server leave its strings and arrays

The loops of `trim` and `split` stay within their string and their array, except for a string of
blanks (`trimAt_eq`, `splitAt_eq`); on what a message can hold they leave what the loops with their `int`s
leave (`wordsAt_loops`).  The setup messages read as many words as they need, whether the
words are there or not; **`inBounds_iff`** says which messages are safe.
-/

namespace MuseKv

open General Kvstore Command

/-! ### Accesses -/

section Accesses

variable {α β : Type} {fault : Fault}

theorem cellAt_of_getElem? {cells : List α} {i : Int} {x : α} (hi : 0 ≤ i)
    (h : cells[i.toNat]? = some x) : cellAt fault cells i = .ok x := by
  obtain ⟨hlt, rfl⟩ := List.getElem?_eq_some_iff.mp h
  rw [cellAt, dif_pos ⟨hi, by omega⟩]
  rfl

theorem cellAt_of_none {cells : List α} {i : Int} (h : ¬ (0 ≤ i ∧ i < cells.length)) :
    cellAt fault cells i = .error fault :=
  dif_neg h

theorem charAt_append (pre t : Str) (c : UInt8) : charAt (pre ++ c :: t) pre.length = .ok c := by
  refine cellAt_of_getElem? (by omega) ?_
  rw [List.append_assoc, Int.toNat_natCast, List.getElem?_append_right le_rfl, Nat.sub_self]
  rfl

/-- No fault but that of `new`. -/
def Bounded (r : Except Fault α) : Prop := ∀ f, r = .error f → f = .length

theorem bounded_ok (a : α) : Bounded (.ok a : Except Fault α) := nofun

theorem bounded_error {f : Fault} : Bounded (.error f : Except Fault α) ↔ f = .length :=
  ⟨fun h => h f rfl, fun h _ hf => Except.error.inj hf ▸ h⟩

theorem bounded_map {r : Except Fault α} {g : α → β} : Bounded (r.map g) ↔ Bounded r := by
  cases r with
  | error f => exact bounded_error.trans bounded_error.symm
  | ok a => exact iff_of_true (bounded_ok _) (bounded_ok _)

/-- An access, and what follows it. -/
theorem bounded_cellAt_bind {cells : List α} {i : Int} {g : α → Except Fault β}
    (hfault : fault ≠ .length) :
    Bounded ((cellAt fault cells i).bind g) ↔
      ∃ x, (0 ≤ i ∧ cells[i.toNat]? = some x) ∧ Bounded (g x) := by
  by_cases h : 0 ≤ i ∧ i < cells.length
  · obtain ⟨x, hget⟩ : ∃ x, cells[i.toNat]? = some x := ⟨_, List.getElem?_eq_getElem (by omega)⟩
    rw [cellAt_of_getElem? h.1 hget]
    constructor
    · exact fun hg => ⟨_, ⟨h.1, hget⟩, hg⟩
    · rintro ⟨x', ⟨-, hx⟩, hg⟩
      obtain rfl := Option.some.inj (hget.symm.trans hx)
      exact hg
  · rw [cellAt_of_none h]
    refine iff_of_false (fun hb => hfault (hb fault rfl)) ?_
    rintro ⟨x, ⟨hi, hx⟩, -⟩
    have hlt := (List.getElem?_eq_some_iff.mp hx).1
    exact h ⟨hi, by omega⟩

theorem bounded_cellAt {cells : List α} {i : Int} (hfault : fault ≠ .length) :
    Bounded (cellAt fault cells i) ↔ 0 ≤ i ∧ i < cells.length := by
  by_cases h : 0 ≤ i ∧ i < cells.length
  · obtain ⟨x, hget⟩ : ∃ x, cells[i.toNat]? = some x := ⟨_, List.getElem?_eq_getElem (by omega)⟩
    rw [cellAt_of_getElem? h.1 hget]
    exact iff_of_true (bounded_ok _) h
  · rw [cellAt_of_none h, bounded_error]
    exact iff_of_false hfault h

/-- An access whose value is not looked at. -/
theorem bounded_cellAt_const {cells : List α} {i : Int} {r : Except Fault β}
    (hfault : fault ≠ .length) :
    Bounded ((cellAt fault cells i).bind fun _ => r) ↔ (0 ≤ i ∧ i < cells.length) ∧ Bounded r := by
  rw [bounded_cellAt_bind hfault]
  constructor
  · rintro ⟨x, ⟨hi, hx⟩, hr⟩
    have hlt := (List.getElem?_eq_some_iff.mp hx).1
    exact ⟨⟨hi, by omega⟩, hr⟩
  · rintro ⟨⟨hi, hlt⟩, hr⟩
    exact ⟨_, ⟨hi, List.getElem?_eq_getElem (by omega)⟩, hr⟩

end Accesses

namespace Kvstore

/-! ### `trim` -/

/-- A string of blanks. -/
def Blank (s : Str) : Prop := s ≠ [] ∧ ∀ c ∈ s, isBlank c = true

instance (s : Str) : Decidable (Blank s) := inferInstanceAs (Decidable (_ ∧ _))

/-- The first loop stops at the first character that is no blank. -/
theorem skipLeading_eq (pre t : Str) (hpre : ∀ c ∈ pre, isBlank c = true) :
    skipLeading (pre ++ t) t.length
      = .ok ((pre ++ t).length - ((pre ++ t).dropWhile isBlank).length) := by
  induction t generalizing pre with
  | nil =>
    have hall : pre.dropWhile isBlank = [] := List.dropWhile_eq_nil_iff.mpr hpre
    have hend : charAt pre pre.length = .ok 0 := by
      refine cellAt_of_getElem? (by omega) ?_
      rw [Int.toNat_natCast, List.getElem?_append_right le_rfl, Nat.sub_self]
      rfl
    rw [List.append_nil, hall, List.length_nil, skipLeading, hend, Nat.sub_zero]
    rfl
  | cons c t ih =>
    have hlen : ((pre ++ c :: t).length : Int) - (t.length + 1) = pre.length := by
      rw [List.length_append, List.length_cons]
      push_cast
      ring
    rw [List.length_cons, skipLeading, hlen, charAt_append]
    change (if isBlank c then _ else _) = _
    split_ifs with hc
    · have h := ih (pre ++ [c]) (by simpa [or_imp, forall_and] using ⟨hpre, hc⟩)
      rwa [List.append_assoc, List.singleton_append] at h
    · rw [List.dropWhile_append_of_pos hpre, List.dropWhile_cons_of_neg hc, List.length_cons]

/-- The second loop stops at the last character that is no blank, or in front of the string. -/
theorem skipTrailing_eq (str : Str) {i : ℕ} (hi : i ≤ str.length) :
    skipTrailing str i = if (str.take i).all isBlank then .error .char
      else .ok ((str.take i).rdropWhile isBlank).length := by
  induction i with
  | zero => rfl
  | succ i ih =>
    have hlt : i < str.length := hi
    have hget : charAt str i = .ok str[i] := by
      refine cellAt_of_getElem? (by omega) ?_
      rw [Int.toNat_natCast, List.getElem?_append_left hlt]
      exact List.getElem?_eq_getElem hlt
    have htake : str.take (i + 1) = str.take i ++ [str[i]] := (List.take_concat_get' str i hlt).symm
    rw [skipTrailing, hget, htake]
    change (if isBlank str[i] then _ else _) = _
    by_cases hc : isBlank str[i] = true
    · have hall : (str.take i ++ [str[i]]).all isBlank = (str.take i).all isBlank := by
        rw [List.all_append, List.all_cons, List.all_nil, hc, Bool.and_true, Bool.and_true]
      rw [if_pos hc, ih hlt.le, List.rdropWhile_concat_pos _ _ _ hc, hall]
    · have hall : (str.take i ++ [str[i]]).all isBlank = false := by
        rw [List.all_append, List.all_cons, Bool.eq_false_iff.mpr hc, Bool.false_and, Bool.and_false]
      rw [if_neg hc, List.rdropWhile_concat_neg _ _ _ hc, hall, if_neg Bool.false_ne_true,
        List.length_append, List.length_take_of_le hlt.le, List.length_singleton]

/-- The third loop keeps the last blank of every run. -/
theorem squeezeLoop_eq (pre t : Str) :
    squeezeLoop (t.length - 1) (pre ++ t) pre.length = .ok (pre ++ squeeze isBlank t) := by
  match t with
  | [] => rfl
  | [c] => rfl
  | c :: d :: t =>
    have hd : charAt (pre ++ c :: d :: t) (pre.length + 1) = .ok d := by
      have h := charAt_append (pre ++ [c]) t d
      rw [List.append_assoc, List.singleton_append, List.length_append] at h
      exact_mod_cast h
    have hnext : squeezeLoop t.length (pre ++ c :: d :: t) (pre.length + 1)
        = .ok (pre ++ c :: squeeze isBlank (d :: t)) := by
      have h := squeezeLoop_eq (pre ++ [c]) (d :: t)
      rwa [List.append_assoc, List.singleton_append, List.append_assoc, List.singleton_append,
        List.length_append, List.length_singleton] at h
    -- a blank in front of a blank is erased, and the index stays
    have herase : (pre ++ c :: d :: t).eraseIdx pre.length = pre ++ d :: t := by
      rw [List.eraseIdx_append_of_length_le le_rfl, Nat.sub_self, List.eraseIdx_cons_zero]
    rw [squeeze]
    change squeezeLoop (t.length + 1) _ _ = _
    rw [squeezeLoop, charAt_append]
    change (if isBlank c then _ else _) = _
    cases hc : isBlank c with
    | false => exact hnext
    | true =>
      rw [if_pos rfl, hd]
      change (if isBlank d then _ else _) = _
      cases isBlank d with
      | false => exact hnext
      | true =>
        rw [if_pos rfl, herase]
        exact squeezeLoop_eq pre (d :: t)

/-- **`trim` stays within its string**, unless the string consists of blanks. -/
theorem trimAt_eq (s : Str) :
    trimAt s = if Blank s then .error .char else .ok (trim s) := by
  rcases eq_or_ne s [] with rfl | hne
  · rw [if_neg fun h => h.1 rfl]
    rfl
  · have hdrop : s.drop (s.length - (s.dropWhile isBlank).length) = s.dropWhile isBlank :=
      (List.suffix_iff_eq_drop.mp (List.dropWhile_suffix isBlank)).symm
    have hlead := skipLeading_eq [] s (by simp)
    rw [List.nil_append] at hlead
    rw [trimAt, if_neg hne, hlead]
    change (skipTrailing (s.drop _) (s.drop _).length).bind _ = _
    rw [hdrop, skipTrailing_eq _ le_rfl, List.take_length]
    by_cases hblank : Blank s
    · have hnil : s.dropWhile isBlank = [] := List.dropWhile_eq_nil_iff.mpr hblank.2
      rw [if_pos hblank, hnil]
      rfl
    · -- what is left begins with a character that is no blank, where the second loop stops
      have hhead : ¬ (s.dropWhile isBlank).all isBlank = true := by
        intro hall
        rw [List.all_eq_true] at hall
        refine hblank ⟨hne, List.dropWhile_eq_nil_iff.mp ?_⟩
        by_contra hcons
        have hnot := List.head_dropWhile_not isBlank hcons
        rw [hall _ (List.head_mem hcons)] at hnot
        exact Bool.noConfusion hnot
      have htake : (s.dropWhile isBlank).take ((s.dropWhile isBlank).rdropWhile isBlank).length
          = (s.dropWhile isBlank).rdropWhile isBlank :=
        (List.prefix_iff_eq_take.mp (List.rdropWhile_prefix isBlank _)).symm
      rw [if_neg hblank, if_neg hhead]
      change squeezeLoop (((s.dropWhile isBlank).take _).length - 1) _ 0 = _
      rw [htake]
      exact squeezeLoop_eq [] _

/-! ### `split` -/

/-- The next cell. -/
theorem store_next (done : List Str) (room : ℕ) (x : Str) :
    store (done ++ List.replicate (room + 1) []) done.length x
      = .ok (done ++ [x] ++ List.replicate room []) := by
  have hcell : cellAt .arg (done ++ List.replicate (room + 1) []) done.length = .ok [] :=
    cellAt_of_getElem? (by omega) (by simp)
  rw [store, hcell, List.set_append_right _ _ le_rfl, Nat.sub_self, List.replicate_succ,
    List.set_cons_zero, List.append_assoc, List.singleton_append]
  rfl

/-- The loop fills the cells in their order. -/
theorem splitLoop_eq (token : UInt8) (str : Str) (done : List Str) {rest : ℕ}
    (hrest : str.count token = rest) :
    splitLoop token rest str (done ++ List.replicate (rest + 1) []) done.length
      = .ok (done ++ str.splitOn token) := by
  induction rest generalizing str done with
  | zero =>
    rw [splitLoop, store_next, List.splitOn_eq_singleton (List.count_eq_zero.mp hrest)]
    simp
  | succ rest ih =>
    have hmem : token ∈ str := List.count_pos_iff.mp (by omega)
    obtain ⟨a, b, rfl, ha⟩ := List.eq_append_cons_of_mem hmem
    have hne : ∀ c ∈ a, decide (c ≠ token) = true := fun c hc =>
      decide_eq_true fun heq => ha (heq ▸ hc)
    have htake : (a ++ token :: b).takeWhile (· ≠ token) = a := by
      rw [List.takeWhile_append_of_pos hne, List.takeWhile_cons_of_neg (by simp), List.append_nil]
    have hdrop : ((a ++ token :: b).dropWhile (· ≠ token)).tail = b := by
      rw [List.dropWhile_append_of_pos hne, List.dropWhile_cons_of_neg (by simp), List.tail_cons]
    have hcount : b.count token = rest := by
      rw [List.count_append, List.count_eq_zero_of_not_mem ha, List.count_cons_self] at hrest
      omega
    have h := ih b (done ++ [a]) hcount
    rw [List.length_append, List.length_singleton, List.append_assoc done [a] (b.splitOn token),
      List.singleton_append] at h
    rw [splitLoop, htake, store_next, hdrop, List.splitOn_append_cons_self_of_not_mem ha]
    exact h

/-- **`split` stays within its string and its array.** -/
theorem splitAt_eq (s : Str) (token : UInt8) : splitAt s token = .ok (split s token) := by
  rcases eq_or_ne s [] with rfl | hne
  · rfl
  · rw [splitAt, if_neg hne, split_of_ne_nil hne]
    exact splitLoop_eq token s [] rfl

theorem wordsAt_eq (com : Str) :
    wordsAt com = if Blank com then .error .char else .ok (words com) := by
  rw [wordsAt, trimAt_eq]
  split_ifs
  · rfl
  · exact splitAt_eq _ _

/-- **The loops with their `int`s** leave the same words, on a text that an `int` counts and that is not
blank; on blanks they read in front of the string, and what stands there makes no difference. -/
theorem wordsAt_loops (before : UInt8) {com : Str} (hlen : com.length < 2 ^ 31) (hcom : ¬ Blank com) :
    ∃ ws, wordsAt com = .ok ws ∧ (Loops.trimLoop before com).bind (Loops.splitLoop · (byte ' '))
      = some (Loops.filled (trim com) ws) := by
  refine ⟨words com, by rw [wordsAt_eq, if_neg hcom], ?_⟩
  rw [Loops.trimLoop_eq before hlen, Option.bind_some, Loops.splitLoop_eq, splitArray,
    if_pos (Loops.splittable_trim hlen)]
  rfl

end Kvstore

namespace Command

/-- **`command_type` stays within its string and its words.** -/
theorem commandTypeAt_eq (com : Str) :
    commandTypeAt com = if Blank com then .error .char else .ok (commandType com) := by
  rw [commandTypeAt, wordsAt_eq]
  split_ifs
  · rfl
  · change (if (words com).length = 0 then _ else _) = _
    rw [commandType]
    cases words com with
    | nil => rfl
    | cons word args =>
      rw [if_neg (List.length_pos_of_ne_nil (List.cons_ne_nil _ _)).ne', cellAt_of_getElem? le_rfl rfl]
      rfl

/-- **`execute` stays within its string and its words** up to the call of a handler. -/
theorem executeAt_eq (com : Str) (auth : UInt8) (t : Int) (w : World) :
    executeAt com auth t w = if Blank com then .error .char else .ok (execute com auth t w) := by
  rw [executeAt, wordsAt_eq]
  split_ifs
  · rfl
  · change (if (words com).length = 0 then _ else _) = _
    rw [execute]
    cases words com with
    | nil => rfl
    | cons word args =>
      rw [if_neg (List.length_pos_of_ne_nil (List.cons_ne_nil _ _)).ne', cellAt_of_getElem? le_rfl rfl,
        executeWords]
      change (if word ∈ controlWords then _ else _) = _
      by_cases hctl : word ∈ controlWords
      · rw [if_pos hctl, if_pos hctl]
        rfl
      · -- the key is read only where there is one
        have hkey : (if (word :: args).length > 1 then (cellAt .arg (word :: args) 1).map some
            else .ok none) = (.ok args.head? : Except Fault (Option Str)) := by
          cases args with
          | nil => rfl
          | cons k args =>
            rw [if_pos (by simp), cellAt_of_getElem? (by norm_num) rfl]
            rfl
        rw [if_neg hctl, if_neg hctl, hkey, List.headD_eq_head?_getD]
        rfl

end Command

namespace Server

/-! ### The setup messages -/

variable {s : Server} {com : Str} {connected : Bool}

/-- The arrays of the replicas have a cell less than there are replicas. -/
structure Sized (s : Server) : Prop where
  replicaCom : s.replicaCom.length = (s.replicaNum - 1).toNat
  replicaIp : s.replicaIp.length = (s.replicaNum - 1).toNat
  replicaPort : s.replicaPort.length = (s.replicaNum - 1).toNat
  replicaSock : s.replicaSock.length = (s.replicaNum - 1).toNat

/-- A routine that begins with the words of the command. -/
theorem bounded_wordsAt_bind {α : Type} {g : List Str → Except Fault α} (hcom : ¬ Blank com) :
    Bounded ((wordsAt com).bind g) ↔ Bounded (g (words com)) := by
  rw [wordsAt_eq, if_neg hcom]
  rfl

theorem bounded_authorityInitAt : Bounded (authorityInitAt com) ↔ 7 ≤ com.length := by
  rw [authorityInitAt]
  split_ifs with h
  · exact iff_of_true (bounded_ok _) h
  · exact iff_of_false (fun hb => absurd (hb .substr rfl) (by decide)) h

theorem bounded_giveReplicaInfoAt (hcom : ¬ Blank com) (hs : s.Sized) :
    Bounded (s.giveReplicaInfoAt com) ↔
      ∃ arg, (words com)[1]? = some arg ∧ 0 ≤ atoi arg ∧ atoi arg < s.replicaNum - 1 := by
  have hlen := hs.replicaCom
  rw [giveReplicaInfoAt, bounded_wordsAt_bind hcom, bounded_cellAt_bind (by decide)]
  refine exists_congr fun arg => ?_
  rw [bounded_map, bounded_cellAt (by decide), and_iff_right (by norm_num : (0 : Int) ≤ 1)]
  refine and_congr_right fun _ => and_congr_right fun _ => ?_
  omega

theorem bounded_clusterConnectAt (hcom : ¬ Blank com) :
    Bounded (clusterConnectAt com connected) ↔ connectWords connected ≤ (words com).length := by
  rw [clusterConnectAt, bounded_wordsAt_bind hcom, bounded_cellAt_const (by decide),
    bounded_cellAt_const (by decide)]
  cases connected with
  | true =>
    rw [if_pos rfl, bounded_cellAt_const (by decide), bounded_map, bounded_cellAt (by decide),
      connectWords]
    omega
  | false =>
    rw [if_neg Bool.false_ne_true, and_iff_left (bounded_ok _), connectWords]
    omega

theorem bounded_hashResetAt (hcom : ¬ Blank com) :
    Bounded (hashResetAt com) ↔ 5 ≤ (words com).length := by
  rw [hashResetAt, bounded_wordsAt_bind hcom, bounded_cellAt_const (by decide), bounded_map,
    bounded_cellAt (by decide)]
  omega

theorem bounded_setReplicaNumAt (hcom : ¬ Blank com) :
    Bounded (setReplicaNumAt com) ↔ 2 ≤ (words com).length := by
  rw [setReplicaNumAt, bounded_wordsAt_bind hcom, bounded_cellAt_bind (by decide)]
  have hnew : ∀ arg : Str,
      Bounded (if atoi arg - 1 < 0 then .error .length else .ok () : Except Fault Unit) := by
    intro arg
    split_ifs
    · exact bounded_error.mpr rfl
    · exact bounded_ok _
  constructor
  · rintro ⟨arg, ⟨-, harg⟩, -⟩
    exact (List.getElem?_eq_some_iff.mp harg).1
  · exact fun h => ⟨_, ⟨by norm_num, List.getElem?_eq_getElem h⟩, hnew _⟩

theorem bounded_replicaAddAt (hcom : ¬ Blank com) (hs : s.Sized) :
    Bounded (s.replicaAddAt com) ↔
      ((s.repnum : Int) < s.replicaNum - 1 → 3 ≤ (words com).length) := by
  obtain ⟨hcoms, hips, hports, hsocks⟩ := hs
  rw [replicaAddAt, bounded_wordsAt_bind hcom]
  split_ifs with hroom
  · rw [bounded_cellAt_const (by decide), bounded_cellAt_const (by decide),
      bounded_cellAt_const (by decide), bounded_cellAt_const (by decide),
      bounded_cellAt_const (by decide), bounded_map, bounded_cellAt (by decide)]
    omega
  · exact iff_of_true (bounded_ok _) fun h => absurd h hroom

/-! ### States that the setup messages reach -/

/-- A setup message of the documented form. -/
def SetupMessage (com : Str) : Prop :=
  (∃ level, words com = [lit "client", level]) ∨ (∃ index, words com = [lit "give", index]) ∨
    (∃ ip port start last, words com = [lit "clust", ip, port, start, last]) ∨
    (∃ ip port start last, words com = [lit "myinfo", ip, port, start, last]) ∨
    (∃ num, words com = [lit "replicanumber", num] ∧ 1 ≤ atoi num) ∨
    (∃ ip port, words com = [lit "replica", ip, port]) ∨ words com = [lit "replicaaccept"]

/-- The states that setup messages lead to, on any sessions and with any connections coming about. -/
inductive Reachable : Server → Prop
  | start (port : Int) : Reachable { w := World.fresh port }
  | setup {s : Server} {ss : Session} {com : Str} {t : Int} {connected : Bool} {x : Scan}
      (hs : Reachable s) (hcom : SetupMessage (commandPart com))
      (hx : scanAndSend s ss com t connected = some x) : Reachable x.server

theorem SetupMessage.control (h : SetupMessage com) :
    ∃ word args, words com = word :: args ∧ word ∈ controlWords := by
  rcases h with ⟨_, h⟩ | ⟨_, h⟩ | ⟨_, _, _, _, h⟩ | ⟨_, _, _, _, h⟩ | ⟨_, h, -⟩ | ⟨_, _, h⟩ | h
  · exact ⟨_, _, h, by decide⟩
  · exact ⟨_, _, h, by decide⟩
  · exact ⟨_, _, h, by decide⟩
  · exact ⟨_, _, h, by decide⟩
  · exact ⟨_, _, h, by decide⟩
  · exact ⟨_, _, h, by decide⟩
  · exact ⟨_, _, h, by decide⟩

/-- **A reachable state** has no keys, and its arrays are as long as they should be. -/
theorem Reachable.spec (h : Reachable s) : s.Sized ∧ ∀ k, s.w.h.findNode k = none := by
  induction h with
  | start port => exact ⟨⟨rfl, rfl, rfl, rfl⟩, Hash.findNode_new port⟩
  | @setup s ss com t connected x _ hcom hx ih =>
    obtain ⟨hsized, hempty⟩ := ih
    obtain ⟨word, args, hws, hword⟩ := hcom.control
    rw [scanAndSend, execute, hws, executeWords, if_pos hword, Option.bind_some] at hx
    rcases route_server hx with ⟨-, hs⟩ | ⟨-, hs⟩ | ⟨-, hs⟩ | ⟨-, hs⟩ | hs
    · obtain ⟨_, _, -, -, ⟨-, _, _, -, -, heq⟩ | ⟨-, heq⟩⟩ := clusterConnect_eq_some hs
      · rw [heq]
        exact ⟨⟨hsized.1, hsized.2, hsized.3, hsized.4⟩, hempty⟩
      · rw [heq]
        exact ⟨⟨hsized.1, hsized.2, hsized.3, hsized.4⟩, hempty⟩
    · obtain ⟨_, _, -, -, heq⟩ := hashReset_eq_some hs
      rw [heq]
      exact ⟨⟨hsized.1, hsized.2, hsized.3, hsized.4⟩, hempty⟩
    · obtain ⟨arg, -, -, heq⟩ := setReplicaNum_eq_some hs
      rw [heq]
      exact ⟨⟨List.length_replicate, List.length_replicate, List.length_replicate,
        List.length_replicate⟩, hempty⟩
    · obtain ⟨-, _, _, -, -, -, heq⟩ | ⟨-, -, heq⟩ := replicaAdd_eq_some hs
      · rw [heq]
        exact ⟨⟨List.length_set.trans hsized.1, List.length_set.trans hsized.2,
          List.length_set.trans hsized.3, List.length_set.trans hsized.4⟩, hempty⟩
      · rw [heq]
        exact ⟨⟨hsized.1, hsized.2, hsized.3, hsized.4⟩, hempty⟩
    · rw [hs]
      exact ⟨⟨hsized.1, hsized.2, hsized.3, hsized.4⟩, hempty⟩

end Server

namespace Command

/-- A command whose key is missing quotes no text. -/
theorem quote_none : ∀ e ∈ quotes, ∀ c x, e.2 c none ≠ some (.text x) := by
  have hname : ∀ c : Call, ∀ x, some (Shown.name c.k) ≠ some (.text x) := by
    intro c x
    simp
  have hint : ∀ c str x, Quote.withInt str (fun _ => Quote.alive c none) ≠ some (.text x) := by
    intro c str x
    rw [Quote.withInt]
    split
    · exact hname c x
    · simp
  simp only [quotes, List.forall_mem_cons, List.not_mem_nil, IsEmpty.forall_iff, implies_true,
    and_true]
  -- only `expire` looks at an argument before it looks for the key
  exact ⟨hname, hname, hname, hname, hname, hname, hname, hname, hname, hname, hname, hname, hname,
    hname, hname, hname, hname, hname, hname, hname, fun c x => hint c _ x, hname⟩

/-- The only text that an empty table shows is empty. -/
theorem shown_of_empty {h : Hash} (hempty : ∀ k, h.findNode k = none) {ws : List Str} {auth : UInt8}
    {t : Int} {x : Str} (hx : shown ws auth t h = some (.text x)) : x = [] := by
  match ws with
  | [] =>
    rw [shown] at hx
    exact absurd hx (by simp)
  | word :: args =>
    obtain ⟨handler, -, hx⟩ := Option.bind_eq_some_iff.mp hx
    cases handler with
    | keyed f =>
      obtain ⟨quote, hquote, hx⟩ := Option.bind_eq_some_iff.mp hx
      obtain ⟨pre, post, hquotes, -⟩ := List.lookup_eq_some_iff.mp hquote
      have hmem : (word, quote) ∈ quotes := by
        rw [hquotes]
        exact List.mem_append_right _ (List.mem_cons_self ..)
      rw [hempty] at hx
      exact absurd hx (quote_none _ hmem _ x)
    | keys =>
      obtain rfl := Shown.text.inj (Option.some.inj hx)
      simp [keys, hempty, merge]
    | save => exact absurd hx (by simp)
    | read => exact absurd hx (by simp)

/-- **In an empty table, only a control word is answered with a control reply.** -/
theorem magic_of_empty {w w' : World} (hempty : ∀ k, w.h.findNode k = none) {ws : List Str}
    {auth : UInt8} {t : Int} {word : Str} (hword : word ∈ controlWords)
    (h : executeWords ws auth t w = some (magic word, w')) : ws.head? = some word := by
  by_cases hctl : ∃ word' ∈ ws.head?, word' ∈ controlWords
  · obtain ⟨word', hhead, hword'⟩ := hctl
    obtain ⟨args, rfl⟩ := List.head?_eq_some_iff.mp hhead
    rw [executeWords, if_pos hword'] at h
    obtain ⟨heq, -⟩ := Prod.mk.inj (Option.some.inj h)
    rw [List.head?_cons, (List.cons.inj (List.cons.inj heq).2).2]
  · have hctl : ∀ word' ∈ ws.head?, word' ∉ controlWords := fun word' hhead hin =>
      hctl ⟨word', hhead, hin⟩
    exfalso
    cases href : refused w.h ws with
    | true =>
      obtain ⟨k, -, hmsg, -⟩ := executeWords_refused hctl href h
      exact absurd (List.cons.inj hmsg).1 (by decide)
    | false =>
      have hreports := reports_shown hctl href h
      generalize hsh : shown ws auth t w.h = o at hreports
      cases hreports with
      | plain hplain => exact hplain (Or.inr ⟨word, hword, rfl⟩)
      | name _ hmagic => exact hmagic word hword rfl
      | text => exact List.cons_ne_nil _ _ (shown_of_empty hempty hsh)

end Command

/-! ### The messages that are safe -/

variable {s : Server} {ss : Session} {com : Str} {t : Int} {connected : Bool}

/-- Where there is no fault, the outcome is that of `scan_and_send`. -/
theorem scanAndSend_of_at {o : Option Scan}
    (h : scanAndSendAt s ss com t connected = .ok o) : scanAndSend s ss com t connected = o := by
  have hfault : ∀ f, (.error f : Except Fault (Option Scan)) ≠ .ok o := by simp
  rw [scanAndSendAt, commandTypeAt_eq, executeAt_eq] at h
  by_cases hcom : Blank com
  · rw [if_pos hcom] at h
    exact absurd h (hfault _)
  by_cases hcut : Blank (commandPart com)
  · rw [if_neg hcom, if_pos hcut] at h
    exact absurd h (hfault _)
  rw [if_neg hcom, if_neg hcut] at h
  rw [scanAndSend]
  cases hexec : execute (commandPart com) (toU8 (authority ss com)) t s.w with
  | none =>
    rw [hexec] at h
    exact Except.ok.inj h
  | some r =>
    rw [hexec] at h
    change (s.controlAt (commandPart com) connected r.1).map _ = .ok o at h
    cases hcontrol : s.controlAt (commandPart com) connected r.1 with
    | error f =>
      rw [hcontrol] at h
      exact absurd h (hfault _)
    | ok _ =>
      rw [hcontrol] at h
      exact Except.ok.inj h

/-- **A message stays in bounds**: no routine reads a character outside a string, an element outside
the words or the arrays of the replicas, or calls `substr` behind the end. -/
def InBounds (s : Server) (ss : Session) (com : Str) (t : Int) (connected : Bool) : Prop :=
  ∀ f, scanAndSendAt s ss com t connected = .error f → f = .length

/-- A command that has what its routines read: a character other than a blank, if it has any, and
behind each of the setup words the arguments of its message. -/
structure Guarded (s : Server) (cut : Str) (connected : Bool) : Prop where
  text : cut = [] ∨ ∃ c ∈ cut, isBlank c = false
  client : (words cut).head? = some (lit "client") → 7 ≤ cut.length
  give : (words cut).head? = some (lit "give") →
    ∃ arg, (words cut)[1]? = some arg ∧ 0 ≤ atoi arg ∧ atoi arg < s.replicaNum - 1
  clust : (words cut).head? = some (lit "clust") →
    Server.connectWords connected ≤ (words cut).length
  myinfo : (words cut).head? = some (lit "myinfo") → 5 ≤ (words cut).length
  replicanumber : (words cut).head? = some (lit "replicanumber") → 2 ≤ (words cut).length
  replica : (words cut).head? = some (lit "replica") →
    (s.repnum : Int) < s.replicaNum - 1 → 3 ≤ (words cut).length

theorem not_blank_iff {cut : Str} : ¬ Blank cut ↔ cut = [] ∨ ∃ c ∈ cut, isBlank c = false := by
  simp only [Blank, not_and, not_forall, Bool.not_eq_true, exists_prop, ne_eq, or_iff_not_imp_left]

/-- The chain of setup messages, behind the reply to a control word. -/
theorem bounded_controlAt {cut word : Str} {args : List Str} (hs : s.Sized) (hcut : ¬ Blank cut)
    (hws : words cut = word :: args) (hword : word ∈ controlWords) (connected : Bool) :
    Bounded (s.controlAt cut connected (magic word)) ↔ Guarded s cut connected := by
  have htext := not_blank_iff.mp hcut
  have hhead : (words cut).head? = some word := by rw [hws, List.head?_cons]
  -- only the condition of the word itself is asked for
  have hother : ∀ {word' : Str} {p : Prop}, word ≠ word' → (words cut).head? = some word' → p :=
    fun hne h => absurd (Option.some.inj (hhead.symm.trans h)) hne
  rw [Server.controlAt]
  simp only [controlWords, List.mem_cons, List.not_mem_nil, or_false] at hword
  rcases hword with rfl | rfl | rfl | rfl | rfl | rfl | rfl
  · rw [if_pos rfl, Server.bounded_authorityInitAt]
    exact ⟨fun h => ⟨htext, fun _ => h, hother (by decide), hother (by decide), hother (by decide),
      hother (by decide), hother (by decide)⟩, fun h => h.client hhead⟩
  · rw [if_neg (by decide), if_pos rfl, Server.bounded_giveReplicaInfoAt hcut hs]
    exact ⟨fun h => ⟨htext, hother (by decide), fun _ => h, hother (by decide), hother (by decide),
      hother (by decide), hother (by decide)⟩, fun h => h.give hhead⟩
  · rw [if_neg (by decide), if_neg (by decide), if_pos rfl, Server.bounded_clusterConnectAt hcut]
    exact ⟨fun h => ⟨htext, hother (by decide), hother (by decide), fun _ => h, hother (by decide),
      hother (by decide), hother (by decide)⟩, fun h => h.clust hhead⟩
  · rw [if_neg (by decide), if_neg (by decide), if_neg (by decide), if_pos rfl,
      Server.bounded_hashResetAt hcut]
    exact ⟨fun h => ⟨htext, hother (by decide), hother (by decide), hother (by decide), fun _ => h,
      hother (by decide), hother (by decide)⟩, fun h => h.myinfo hhead⟩
  · rw [if_neg (by decide), if_neg (by decide), if_neg (by decide), if_neg (by decide), if_pos rfl,
      Server.bounded_setReplicaNumAt hcut]
    exact ⟨fun h => ⟨htext, hother (by decide), hother (by decide), hother (by decide),
      hother (by decide), fun _ => h, hother (by decide)⟩, fun h => h.replicanumber hhead⟩
  · rw [if_neg (by decide), if_neg (by decide), if_neg (by decide), if_neg (by decide),
      if_neg (by decide), if_pos rfl, Server.bounded_replicaAddAt hcut hs]
    exact ⟨fun h => ⟨htext, hother (by decide), hother (by decide), hother (by decide),
      hother (by decide), hother (by decide), fun _ => h⟩, fun h => h.replica hhead⟩
  · -- `replicaaccept` reads nothing
    rw [if_neg (by decide), if_neg (by decide), if_neg (by decide), if_neg (by decide),
      if_neg (by decide), if_neg (by decide)]
    exact iff_of_true (bounded_ok _) ⟨htext, hother (by decide), hother (by decide),
      hother (by decide), hother (by decide), hother (by decide), hother (by decide)⟩

/-- Behind any other reply, the chain reads nothing. -/
theorem controlAt_of_ne {cut msg : Str} (h : ∀ word ∈ controlWords, msg ≠ magic word) :
    s.controlAt cut connected msg = .ok () := by
  rw [Server.controlAt, if_neg (h _ (by decide)), if_neg (h _ (by decide)), if_neg (h _ (by decide)),
    if_neg (h _ (by decide)), if_neg (h _ (by decide)), if_neg (h _ (by decide))]

/-- A command that is no setup message is guarded when it is not blank. -/
theorem guarded_of_head {cut : Str} (hcut : ¬ Blank cut)
    (h : ∀ word ∈ (words cut).head?, word ∉ controlWords) : Guarded s cut connected where
  text := not_blank_iff.mp hcut
  client hhead := absurd (by decide) (h _ hhead)
  give hhead := absurd (by decide) (h _ hhead)
  clust hhead := absurd (by decide) (h _ hhead)
  myinfo hhead := absurd (by decide) (h _ hhead)
  replicanumber hhead := absurd (by decide) (h _ hhead)
  replica hhead := absurd (by decide) (h _ hhead)

/-- A string of blanks has no suffix. -/
theorem commandPart_of_blank (h : Blank com) : commandPart com = com := by
  refine commandPart_of_not_mem fun hmem => ?_
  have hblank := h.2 _ hmem
  exact absurd hblank (by decide)

/-- **A received message stays in bounds if and only if** its command is not a string of blanks and has
the arguments that its first word asks for. -/
theorem inBounds_iff (hs : s.Reachable) (ss : Session) (com : Str) (t : Int) (connected : Bool) :
    InBounds s ss com t connected ↔ Guarded s (commandPart com) connected := by
  obtain ⟨hsized, hempty⟩ := hs.spec
  rw [InBounds, scanAndSendAt, commandTypeAt_eq, executeAt_eq]
  by_cases hcut : Blank (commandPart com)
  · -- the first `trim` faults, or the second one does
    refine iff_of_false (fun h => ?_) fun h => not_blank_iff.mpr h.text hcut
    refine absurd (h .char ?_) (by decide)
    rw [if_pos hcut]
    split_ifs
    · rfl
    · rfl
  have hcom : ¬ Blank com := fun h => hcut (by rwa [commandPart_of_blank h])
  rw [if_neg hcom, if_neg hcut]
  by_cases hctl : ∃ word ∈ (words (commandPart com)).head?, word ∈ controlWords
  · obtain ⟨word, hhead, hword⟩ := hctl
    -- a control word is answered with its magic text, whatever is in the table
    obtain ⟨args, hws⟩ := List.head?_eq_some_iff.mp hhead
    have hexec : execute (commandPart com) (toU8 (authority ss com)) t s.w
        = some (magic word, s.w) := by
      rw [execute, hws, executeWords, if_pos hword]
      rfl
    rw [hexec, ← bounded_controlAt hsized hcut hws hword connected]
    exact bounded_map
  · have hctl : ∀ word ∈ (words (commandPart com)).head?, word ∉ controlWords :=
      fun word hhead hin => hctl ⟨word, hhead, hin⟩
    refine iff_of_true ?_ (guarded_of_head hcut hctl)
    cases hexec : execute (commandPart com) (toU8 (authority ss com)) t s.w with
    | none => exact bounded_ok _
    | some r =>
      -- no other command is answered with such a text
      have hne : ∀ word ∈ controlWords, r.1 ≠ magic word := by
        intro word hword heq
        have hreply : execute (commandPart com) (toU8 (authority ss com)) t s.w
            = some (magic word, r.2) := by
          rw [hexec, ← heq]
        exact hctl word (magic_of_empty hempty hword hreply) hword
      refine bounded_map.mpr ?_
      rw [controlAt_of_ne hne]
      exact bounded_ok _

/-! ### A message of one word -/

/-- `client 3` on a new server. -/
theorem inBounds_client : Server.Reachable { w := World.fresh 8000 } ∧
    InBounds { w := World.fresh 8000 } {} (lit "client 3") 0 true := by
  refine ⟨.start 8000, (inBounds_iff (.start 8000) {} (lit "client 3") 0 true).mpr ?_⟩
  have hhead : (words (commandPart (lit "client 3"))).head? = some (lit "client") := by decide
  have hother : ∀ {word : Str} {p : Prop}, lit "client" ≠ word →
      (words (commandPart (lit "client 3"))).head? = some word → p :=
    fun hne h => absurd (Option.some.inj (hhead.symm.trans h)) hne
  exact ⟨Or.inr ⟨byte 'c', by decide, by decide⟩, fun _ => by decide, hother (by decide),
    hother (by decide), hother (by decide), hother (by decide), hother (by decide)⟩

/-- **`client` alone** makes a new server call `substr` behind the end, and a blank makes it read in
front of a string. -/
theorem not_inBounds_client :
    scanAndSendAt { w := World.fresh 8000 } {} (lit "client") 0 true = .error .substr ∧
      scanAndSendAt { w := World.fresh 8000 } {} (lit " ") 0 true = .error .char ∧
      ¬ ∀ (s : Server) (ss : Session) (com : Str) (t : Int) (connected : Bool), s.Reachable →
        (0 : UInt8) ∉ com → InBounds s ss com t connected := by
  have hsubstr : scanAndSendAt { w := World.fresh 8000 } {} (lit "client") 0 true
      = .error .substr := rfl
  refine ⟨hsubstr, rfl, fun h => ?_⟩
  exact absurd (h { w := World.fresh 8000 } {} (lit "client") 0 true (.start 8000) (by decide)
    .substr hsubstr) (by decide)

end MuseKv
