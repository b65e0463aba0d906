import MuseKv.Hash.Equiv.Snapshot
import MuseKv.Hash.Equiv.Load
import MuseKv.Command.Equiv.ReadProtection
import MuseKv.Command.Equiv.RoundTrip
import MuseKv.Command.Equiv.WriteProtection

/-!
# The levels of the entries

In every state that is reached, the read level of an entry is at most its write level, and a command
leaves no entry that it changed with a write level above its authority (`levels_of_reachable`).  The
levels come from `set`, from `authr` and `authw`, and from the records of a snapshot, which carry them
in front of the key (`levels_of_record`).
-/

namespace MuseKv

open General Kvstore Command

/-- The read level of every entry is at most its write level. -/
def Hash.Ordered (h : Hash) : Prop := ∀ k n, h.findNode k = some n → n.authr ≤ n.authw

/-- A password that matches the exponent of the snapshot. -/
def Matches (pw : Str) : Prop :=
  ∃ d, strtoint pw = some (true, d) ∧ 28969 * d % (1020 * 1452) = 1

namespace World

/-- The states that are reached from empty tables by commands, where `read` is given a matching
password and the file is one that `save` wrote, of this table or of another one. -/
inductive Reachable : World → Prop
  | start {w : World} (hempty : ∀ k, w.h.findNode k = none) (hcsv : w.csv = none) : Reachable w
  | command {w w' : World} {com msg : Str} {auth : UInt8} {t : Int} (hw : Reachable w)
      (hread : ∀ pw, words com = [lit "read", pw] → Matches pw)
      (h : execute com auth t w = some (msg, w')) : Reachable w'
  | file {w v v' : World} (hw : Reachable w) (hv : Reachable v) (hsave : v.save = some (true, v')) :
      Reachable { w with csv := v'.csv }

end World

namespace Hash

/-! ### Records -/

/-- **A record carries the levels of its entry**, whatever its key and value are. -/
theorem levels_of_record {e : Str × Kv} {x : Str} (hx : e.2.v.dataDecode = some x) {r : Record}
    (hr : readRecord (cString (record e)) = some (some r)) : r.2.2 = (e.2.authr, e.2.authw) := by
  obtain ⟨a0, a1, a2, arg, args, dtype, authw, authr, hsplit, -, h1, h2, -, hlevels⟩ :=
    readRecord_eq_some hr
  rw [cString_record hx, split_of_ne_nil (by simp),
    List.splitOn_append_cons_self_of_not_mem (clean_code _).1,
    List.splitOn_append_cons_self_of_not_mem (clean_toStr _).1,
    List.splitOn_append_cons_self_of_not_mem (clean_toStr _).1] at hsplit
  simp only [List.cons.injEq] at hsplit
  obtain ⟨-, rfl, rfl, -⟩ := hsplit
  rw [strtoint_level, Option.some.injEq, Prod.mk.injEq] at h1 h2
  rw [hlevels, ← h1.2, ← h2.2, toU8_natCast_toNat, toU8_natCast_toNat]

/-- The records that are entered are those of lines of the file. -/
theorem Loads.exists_line {password : Int} {lines : List Str} {b : Bool} {rs : List Record}
    (hl : Loads password lines b rs) : ∀ r ∈ rs, ∃ line ∈ lines,
      readLine password line = some (some r) := by
  induction hl with
  | done => simp
  | damaged => simp
  | @entered line lines r b rs h _ ih =>
    refine List.forall_mem_cons.mpr ⟨⟨line, List.mem_cons_self .., h⟩, fun r' hr' => ?_⟩
    obtain ⟨line', hmem, hline⟩ := ih r' hr'
    exact ⟨line', List.mem_cons_of_mem _ hmem, hline⟩

theorem Ordered.set {h : Hash} (hh : h.Ordered) (k : Str) (v : Value) {r w : UInt8} (hrw : r ≤ w) :
    (h.set k v r w).Ordered := by
  intro k' n hn
  rw [findNode_set] at hn
  split_ifs at hn with hk
  · have hlevels := setEntry_levels v hrw (h.findNode k)
    rw [← Option.some.inj hn, hlevels.1, hlevels.2]
    exact hrw
  · exact hh k' n hn

/-- Reading a file that `save` wrote from ordered levels. -/
theorem Ordered.read {h h' h₀ : Hash} (hh : h.Ordered) (h₀o : h₀.Ordered) {text pw : Str} {b : Bool}
    (htext : h₀.saveText = some text) (hpw : Matches pw)
    (hr : h.read (some text) pw = some (b, h')) : h'.Ordered := by
  obtain ⟨d, hd, hmatch⟩ := hpw
  obtain ⟨hall, htext⟩ := saveEntries_eq_some.mp htext
  obtain ⟨rs, hreads, rfl⟩ := read_eq_some_iff.mp hr
  obtain ⟨-, hloads⟩ := (reads_iff hd).mp hreads
  rw [htext, tokens_lines hall] at hloads
  have hlevels : ∀ r ∈ rs, r.2.2.1 ≤ r.2.2.2 := by
    intro r hr
    obtain ⟨line, hline, hrecord⟩ := hloads.exists_line r hr
    obtain ⟨e, he, rfl⟩ := List.mem_map.mp hline
    obtain ⟨x, hx⟩ := (hall e he).1
    have hfits : Splittable (recordLine e) (byte '\\') := by
      have hsome : decryptLine d (recordLine e) ≠ none := fun hnone => by
        rw [readLine, hnone] at hrecord
        exact absurd hrecord (by simp)
      exact splittable_of_decryptLine hsome
    rw [recordLine] at hrecord hfits
    by_cases hpos : 0 < d
    · have hopens : Opens d := fun c => Encrypt.decrypt_encrypt_modulus hpos hmatch c
      rw [readLine_of_decryptLine (hopens.decryptLine hfits)] at hrecord
      rw [levels_of_record hx hrecord]
      exact h₀o e.1 e.2 (findNode_eq_some_iff.mpr he)
    · -- such a password reads no record at all
      rw [readLine_of_decryptLine (decryptLine_encryptString d hfits), List.map_congr_left fun c _ =>
        Encrypt.decrypt_of_nonpos (not_lt.mp hpos) _ _, readRecord_of_nonpos] at hrecord
      exact absurd hrecord (by simp)
  clear hreads hloads hr
  induction rs generalizing h with
  | nil => exact hh
  | cons r rs ih =>
    obtain ⟨hr, hrs⟩ := List.forall_mem_cons.mp hlevels
    rw [List.foldl_cons]
    exact ih (hh.set _ _ hr) hrs

end Hash

/-! ### Actions -/

/-- The entry that an allowed action leaves has ordered levels. -/
theorem Command.Allowed.run_ordered {c : Call} {node : Option Kv} {a : KeyAction}
    (h : Allowed c node a) (hnode : ∀ n, node = some n → n.authr ≤ n.authw) {n' : Kv}
    (hn' : a.run node = some n') : n'.authr ≤ n'.authw := by
  cases a with
  | keep => exact hnode n' hn'
  | del => exact absurd hn' (by simp [KeyAction.run])
  | set v r w =>
    have hrw : r ≤ w := h.set_levels.1
    have hlevels := Hash.setEntry_levels v hrw node
    rw [← Option.some.inj hn', hlevels.1, hlevels.2]
    exact hrw
  | write m =>
    cases node with
    | none => exact absurd hn' (by simp [KeyAction.run])
    | some n =>
      obtain rfl := Option.some.inj hn'
      exact h.ordered (hnode n rfl)

/-- **An entry that an action changed** has a write level within the authority. -/
theorem Command.Allowed.authw_le {c : Call} {node : Option Kv} {a : KeyAction}
    (h : Allowed c node a) {n' : Kv} (hn' : a.run node = some n') (hne : node ≠ some n') :
    n'.authw ≤ c.auth := by
  cases h with
  | keep => exact absurd hn' hne
  | expired => exact absurd hn' (by simp [KeyAction.run])
  | del => exact absurd hn' (by simp [KeyAction.run])
  | @set _ v r w _ _ hrw hw =>
    rw [← Option.some.inj hn', (Hash.setEntry_levels v hrw node).2]
    exact hw
  | same => exact absurd hn' hne
  | content hw =>
    rw [← Option.some.inj hn']
    exact hw
  | ttl hw =>
    rw [← Option.some.inj hn']
    exact hw
  | @authr n x hw hx =>
    rw [← Option.some.inj hn']
    -- the write level is raised to the new read level, or stays
    change (if x > n.authw then x else n.authw) ≤ c.auth
    split_ifs
    · exact hx
    · exact hw
  | authw hw hx =>
    rw [← Option.some.inj hn']
    exact hx

/-! ### Commands -/

namespace World

/-- The levels are ordered, in the table and in the file. -/
structure Ordered (w : World) : Prop where
  table : w.h.Ordered
  file : ∀ text, w.csv = some text → ∃ h : Hash, h.Ordered ∧ h.saveText = some text

theorem Ordered.save {w w' : World} {b : Bool} (hw : w.Ordered) (h : w.save = some (b, w')) :
    w'.Ordered := by
  rw [World.save] at h
  split_ifs at h
  · obtain ⟨text, htext, heq⟩ := Option.map_eq_some_iff.mp h
    obtain ⟨-, rfl⟩ := Prod.mk.inj heq
    refine ⟨hw.table, fun text' htext' => ⟨w.h, hw.table, ?_⟩⟩
    rw [htext, ← Option.some.inj htext']
  · obtain ⟨-, rfl⟩ := Prod.mk.inj (Option.some.inj h)
    exact hw

theorem Ordered.read {w w' : World} {pw : Str} {b : Bool} (hw : w.Ordered) (hpw : Matches pw)
    (h : w.read pw = some (b, w')) : w'.Ordered := by
  obtain ⟨⟨b', h'⟩, hr, heq⟩ := Option.map_eq_some_iff.mp h
  obtain ⟨-, rfl⟩ := Prod.mk.inj heq
  refine ⟨?_, hw.file⟩
  cases hcsv : w.csv with
  | none =>
    rw [hcsv] at hr
    obtain ⟨-, rfl⟩ := Prod.mk.inj (Option.some.inj hr)
    exact hw.table
  | some text =>
    obtain ⟨h₀, hordered, htext⟩ := hw.file text hcsv
    rw [hcsv] at hr
    exact hw.table.read hordered htext hpw hr

/-- One command. -/
theorem Ordered.execute {w w' : World} {com msg : Str} {auth : UInt8} {t : Int} (hw : w.Ordered)
    (hread : ∀ pw, words com = [lit "read", pw] → Matches pw)
    (h : Command.execute com auth t w = some (msg, w')) : w'.Ordered := by
  rcases executeWords_cases h with rfl | hkey | ⟨-, b, hsave⟩ | ⟨pw, b, hws, hpw⟩
  · exact hw
  · obtain ⟨word, k, args, f, a, h', -, -, -, -, hallowed, ha, rfl⟩ := hkey
    refine ⟨fun k' n hn => ?_, hw.file⟩
    rw [Hash.findNode_apply ha] at hn
    split_ifs at hn with hk
    · exact hallowed.run_ordered (hw.table k) hn
    · exact hw.table k' n hn
  · exact hw.save hsave
  · exact hw.read (hread pw hws) hpw

/-- **Every state that is reached has ordered levels.** -/
theorem Reachable.ordered {w : World} (hw : Reachable w) : w.Ordered := by
  induction hw with
  | start hempty hcsv =>
    refine ⟨fun k n hn => ?_, fun text htext => ?_⟩
    · rw [hempty k] at hn
      exact absurd hn (by simp)
    · rw [hcsv] at htext
      exact absurd htext (by simp)
  | command _ hread h ih => exact ih.execute hread h
  | file _ _ hsave ihw ihv => exact ⟨ihw.table, (ihv.save hsave).file⟩

/-- What a command other than `read` changed has a write level within its authority. -/
theorem authw_le_of_execute {w w' : World} {com msg : Str} {auth : UInt8} {t : Int}
    (hread : isRead com = false) (h : Command.execute com auth t w = some (msg, w')) {k : Str} {n : Kv}
    (hn : w'.h.findNode k = some n) (hne : w.h.findNode k ≠ some n) : n.authw ≤ auth := by
  rcases executeWords_cases h with rfl | hkey | ⟨-, b, hsave⟩ | ⟨pw, b, hws, -⟩
  · exact absurd hn hne
  · obtain ⟨word, k', args, f, a, h', -, -, -, -, hallowed, ha, rfl⟩ := hkey
    rw [Hash.findNode_apply ha] at hn
    split_ifs at hn with hk
    · rw [hk] at hne
      exact hallowed.authw_le hn hne
    · exact absurd hn hne
  · rw [save_h hsave] at hn
    exact absurd hn hne
  · exact absurd hread (by simp [isRead, hws])

/-- **The levels of the entries.**  In a state that is reached they are ordered, and a command other
than `read` leaves every entry that it created or changed with a write level within its authority. -/
theorem levels_of_reachable {w : World} (hw : Reachable w) :
    (∀ k n, w.h.findNode k = some n → n.authr ≤ n.authw) ∧
      ∀ com auth t msg w', isRead com = false → Command.execute com auth t w = some (msg, w') →
        ∀ k n, w'.h.findNode k = some n → w.h.findNode k ≠ some n → n.authw ≤ auth :=
  ⟨hw.ordered.table, fun _ _ _ _ _ hread h _ _ hn hne => authw_le_of_execute hread h hn hne⟩

/-- A table that one command made. -/
theorem levels_of_make : ∃ w, Command.execute (lit "make k v 2 3") 5 0 (fresh 8000)
    = some (confirmMsg, w) ∧ (∀ k n, w.h.findNode k = some n → n.authr ≤ n.authw) ∧
      ∀ com auth t msg w', isRead com = false → Command.execute com auth t w = some (msg, w') →
        ∀ k n, w'.h.findNode k = some n → w.h.findNode k ≠ some n → n.authw ≤ auth := by
  obtain ⟨w, h⟩ : ∃ w, Command.execute (lit "make k v 2 3") 5 0 (fresh 8000)
      = some (confirmMsg, w) := ⟨_, rfl⟩
  have hstart : Reachable (fresh 8000) := .start (Hash.findNode_new 8000) rfl
  refine ⟨w, h, levels_of_reachable (hstart.command (fun pw hpw => ?_) h)⟩
  exact absurd (List.cons.inj hpw).1 (by decide)

end World

end MuseKv
