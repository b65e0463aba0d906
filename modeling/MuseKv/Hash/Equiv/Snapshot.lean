import MuseKv.Hash.Equiv.Record
import MuseKv.Encrypt.Equiv.Lossless

/-!
# The snapshot file

Which tables survive `save` and `read`.  A line of the file decrypts to the message it was made of
(`decryptLine_encryptString`), the file falls apart into its lines (`tokens_lines`), and reading the
lines enters every record under its key (`readLines_entries`, `findNode_rebuildAll`).  So a table
whose entries are all carried comes back (`roundTrips_of_storable`).  Conversely `read` leaves clean
keys only (`readLines_keys`), so a table that comes back has clean keys, and then its values came
back from their own records (`storable_of_roundTrips`).
-/

namespace MuseKv

open General Kvstore Encrypt

/-- `save` returns `true`, `read` into an empty table on the same port returns `true`, and the table
it leaves holds the same. -/
def World.RoundTrips (w : World) (pw : Str) : Prop :=
  ∃ w₁ w₂, w.save = some (true, w₁) ∧
    ({ w₁ with h := Hash.new w.h.portNum } : World).read pw = some (true, w₂) ∧ w.h.Same w₂.h

namespace Hash

/-- The line of a record, without its end. -/
def recordLine (e : Str × Kv) : Str := encryptString modulus exponent (record e)

end Hash

/-- The entries that survive: with a key and a value that a record can carry, and a line that `split` can
count. -/
def Storable (e : Str × Kv) : Prop :=
  Clean e.1 ∧ e.2.v.Storable ∧ Splittable (Hash.recordLine e) (byte '\\')

namespace Hash

/-! ### One line -/

/-- The password undoes the encryption of every byte. -/
def Opens (password : Int) : Prop :=
  ∀ c, decrypt modulus password (encrypt modulus exponent c) = c

/-- The pieces of a line are decrypted as those of any encrypted string. -/
theorem decryptPieces_eq (password : Int) (pieces : List Str) :
    decryptPieces password pieces = decryptWords modulus password pieces := by
  induction pieces with
  | nil => rfl
  | cons piece pieces ih =>
    unfold decryptPieces decryptWords
    rcases readInt piece with _ | ⟨_ | _, x⟩
    · rfl
    · rfl
    · exact congrArg (Option.map (Option.map fun message => decrypt modulus password x :: message)) ih

/-- **A line decrypts** to the bytes that the password makes of its record. -/
theorem decryptLine_encryptString (password : Int) {str : Str}
    (hfits : Splittable (encryptString modulus exponent str) (byte '\\')) :
    decryptLine password (encryptString modulus exponent str) = some (some
      (cString (str.map fun c => decrypt modulus password (encrypt modulus exponent c)))) := by
  have hmodulus : ((1483513 : ℕ) : Int) = modulus := rfl
  rw [decryptLine, splitArray, if_pos hfits, Option.bind_some, split_encryptString, decryptPieces_eq,
    ← hmodulus, decryptWords_encrypt (by norm_num) (by norm_num)]
  rfl

theorem Opens.decryptLine {password : Int} (h : Opens password) {str : Str}
    (hfits : Splittable (encryptString modulus exponent str) (byte '\\')) :
    decryptLine password (encryptString modulus exponent str) = some (some (cString str)) := by
  rw [decryptLine_encryptString _ hfits, List.map_congr_left fun c _ => h c, List.map_id']

/-- A line that is decrypted has an array for its pieces. -/
theorem splittable_of_decryptLine {password : Int} {line : Str} (h : decryptLine password line ≠ none) :
    Splittable line (byte '\\') := by
  by_contra hnot
  rw [Hash.decryptLine, splitArray, if_neg hnot, Option.bind_none] at h
  exact h rfl

theorem length_of_decryptPieces {password : Int} {pieces : List Str} {message : Str}
    (h : decryptPieces password pieces = some (some message)) : message.length = pieces.length := by
  induction pieces generalizing message with
  | nil =>
    obtain rfl := Option.some.inj (Option.some.inj h)
    rfl
  | cons piece pieces ih =>
    rw [decryptPieces] at h
    split at h
    next => exact absurd h (by simp)
    next => exact absurd h (by simp)
    next x hx =>
      obtain ⟨o, ho, hm⟩ := Option.map_eq_some_iff.mp h
      obtain ⟨m, rfl, rfl⟩ := Option.map_eq_some_iff.mp hm
      rw [List.length_cons, List.length_cons, ih ho]

/-- **No `int` overflows on a message**: it is shorter than the number of the pieces of its line. -/
theorem fields_of_decryptLine {password : Int} {line message : Str}
    (h : decryptLine password line = some (some message)) :
    splitArray message (byte ',') = some (split message (byte ',')) ∧
      ∀ field ∈ split message (byte ','), readInt field = strtoint field := by
  have hfits := splittable_of_decryptLine (h ▸ Option.some_ne_none _)
  rw [Hash.decryptLine, splitArray, if_pos hfits, Option.bind_some, Option.map_eq_some_iff] at h
  obtain ⟨o, ho, hm⟩ := h
  obtain ⟨m, rfl, rfl⟩ := Option.map_eq_some_iff.mp hm
  have hpieces := length_split_le line (byte '\\')
  have hlen : (cString m).length + 1 < 2 ^ 31 := by
    have hm := length_of_decryptPieces ho
    have hcut := (List.takeWhile_prefix (fun c : UInt8 => decide (c ≠ 0)) (l := m)).length_le
    have hint := hfits.2
    rw [List.length_dropLast] at hm
    change (m.takeWhile _).length + 1 < 2 ^ 31
    omega
  refine ⟨splitArray_of_length hlen _, fun field hfield => readInt_of_length ?_⟩
  exact (length_le_of_mem_split hfield).trans_lt (by omega)

/-- A password that is not positive makes every line a string of `1` bytes. -/
theorem readRecord_of_nonpos (s : Str) :
    readRecord (cString (s.map fun _ => 1)) = some none := by
  have hall : ∀ c ∈ s.map (fun _ => (1 : UInt8)), c ≠ 0 ∧ c ≠ byte ',' := by
    intro c hc
    obtain ⟨_, -, rfl⟩ := List.mem_map.mp hc
    decide
  rw [cString_of_not_mem fun h => (hall 0 h).1 rfl, readRecord]
  cases s with
  | nil => rfl
  | cons c s =>
    rw [split_of_ne_nil (by simp), List.splitOn_eq_singleton fun h => (hall _ h).2 rfl]

/-! ### The lines of the file -/

theorem getKvStr_eq {e : Str × Kv} {x : Str} (hx : e.2.v.dataDecode = some x) :
    Kv.getKvStr e.1 e.2 = some (record e) ∧ record e = merge (byte ',')
      [e.2.v.dataDtype.code, toStr e.2.authw.toNat, toStr e.2.authr.toNat, e.1, x] := by
  rw [record, Kv.getKvStr, hx]
  exact ⟨rfl, rfl⟩

theorem record_ne_nil {e : Str × Kv} {x : Str} (hx : e.2.v.dataDecode = some x) :
    record e ≠ [] := by
  rw [(getKvStr_eq hx).2, Ne, merge_eq_nil]
  simp

theorem Printable.encryptLine {e : Str × Kv} (h : Printable e) :
    encryptLine (record e) = some (recordLine e ++ [10]) := by
  rw [Hash.encryptLine, encryptText, if_pos h.2]
  rfl

/-- **What `save` writes**: a line for every entry, unless it faults at one. -/
theorem saveEntries_eq_some {es : List (Str × Kv)} {text : Str} :
    saveEntries es = some text ↔
      (∀ e ∈ es, Printable e) ∧ text = es.flatMap fun e => recordLine e ++ [10] := by
  induction es generalizing text with
  | nil => simp [saveEntries, eq_comm]
  | cons e es ih =>
    rw [saveEntries, Option.bind_eq_some_iff]
    constructor
    · rintro ⟨str, hstr, hrest⟩
      obtain ⟨line, hline, hrest⟩ := Option.bind_eq_some_iff.mp hrest
      obtain ⟨rest, hes, rfl⟩ := Option.map_eq_some_iff.mp hrest
      obtain ⟨x, hx, -⟩ := Option.map_eq_some_iff.mp hstr
      obtain ⟨hall, rfl⟩ := ih.mp hes
      obtain rfl := Option.some.inj (hstr.symm.trans (getKvStr_eq hx).1)
      have hprint : Printable e := by
        refine ⟨⟨x, hx⟩, ?_⟩
        by_contra hlong
        rw [encryptLine, encryptText, if_neg hlong, Option.map_none] at hline
        exact absurd hline (by simp)
      obtain rfl := Option.some.inj (hline.symm.trans hprint.encryptLine)
      exact ⟨List.forall_mem_cons.mpr ⟨hprint, hall⟩, rfl⟩
    · rintro ⟨hall, rfl⟩
      obtain ⟨hprint, hall⟩ := List.forall_mem_cons.mp hall
      obtain ⟨x, hx⟩ := hprint.1
      refine ⟨record e, (getKvStr_eq hx).1, ?_⟩
      rw [hprint.encryptLine, Option.bind_some]
      exact Option.map_eq_some_iff.mpr ⟨_, ih.mpr ⟨hall, rfl⟩, rfl⟩

/-- The file falls apart into its lines. -/
theorem tokens_lines {es : List (Str × Kv)} (hes : ∀ e ∈ es, Printable e) :
    tokens isSpace (es.flatMap fun e => recordLine e ++ [10]) = es.map recordLine := by
  induction es with
  | nil => simp
  | cons e es ih =>
    obtain ⟨⟨⟨x, hx⟩, -⟩, hes⟩ := List.forall_mem_cons.mp hes
    have hline : ∀ c ∈ recordLine e, isSpace c = false := by
      intro c hc
      obtain ⟨d, -, hc⟩ := List.mem_flatMap.mp hc
      rcases List.mem_append.mp hc with hc | hc
      · rcases mem_toStr hc with hc | rfl
        · exact (isSpace_of_isDigit hc).1
        · decide
      · rw [List.mem_singleton.mp hc]
        decide
    have hne : recordLine e ≠ [] := by
      obtain ⟨c, s, hs⟩ := List.exists_cons_of_ne_nil (record_ne_nil hx)
      rw [recordLine, hs, encryptString, List.flatMap_cons]
      simp
    rw [List.flatMap_cons, List.append_assoc, List.singleton_append,
      tokens_append_cons _ (by decide), tokens_eq_singleton _ hne hline, ih hes, List.map_cons,
      List.singleton_append]

/-! ### Reading the records -/

/-- NUL does not cut off a clean field. -/
theorem cString_field {s : Str} (hs : Clean s) (t : Str) :
    cString (s ++ byte ',' :: t) = s ++ byte ',' :: cString t := by
  have hnul : (0 : UInt8) ∉ s ++ [byte ','] := fun h => by
    rcases List.mem_append.mp h with h | h
    · exact hs.2 h
    · exact absurd (List.mem_singleton.mp h) (by decide)
  have happ := cString_append hnul t
  rwa [List.append_assoc, List.append_assoc, List.singleton_append, List.singleton_append] at happ

/-- NUL cuts off the end of the key and the value only. -/
theorem cString_record {e : Str × Kv} {x : Str} (hx : e.2.v.dataDecode = some x) :
    cString (record e) = e.2.v.dataDtype.code ++ byte ',' :: (toStr e.2.authw.toNat ++ byte ',' ::
      (toStr e.2.authr.toNat ++ byte ',' :: cString (e.1 ++ byte ',' :: x))) := by
  rw [(getKvStr_eq hx).2]
  simp only [merge_cons_cons, merge_singleton]
  rw [cString_field (clean_code _), cString_field (clean_toStr _), cString_field (clean_toStr _)]

/-- With a clean key, NUL cuts off the end of the value only. -/
theorem cString_record_of_clean {e : Str × Kv} {x : Str} (hx : e.2.v.dataDecode = some x)
    (hk : Clean e.1) : cString (record e) = merge (byte ',')
      [e.2.v.dataDtype.code, toStr e.2.authw.toNat, toStr e.2.authr.toNat, e.1, cString x] := by
  rw [cString_record hx, cString_field hk]
  simp only [merge_cons_cons, merge_singleton]

/-- What the lines of entries with clean keys enter. -/
def rebuildAll : List (Str × Kv) → Hash → Option Hash
  | [], h => some h
  | e :: es, h => (rebuild e.2.v).bind fun v => rebuildAll es (h.set e.1 v e.2.authr e.2.authw)

theorem readLines_entries {password : Int} (hp : Opens password) {es : List (Str × Kv)}
    (hes : ∀ e ∈ es, Clean e.1 ∧ (∃ x, e.2.v.dataDecode = some x) ∧
      Splittable (recordLine e) (byte '\\')) (h : Hash) :
    readLines password (es.map recordLine) h = (rebuildAll es h).map fun h' => (true, h') := by
  induction es generalizing h with
  | nil => rfl
  | cons e es ih =>
    obtain ⟨⟨hk, ⟨x, hx⟩, hfits⟩, hes⟩ := List.forall_mem_cons.mp hes
    have hrebuild : rebuild e.2.v = readBack (cString x) e.2.v.dataDtype := by
      rw [rebuild, hx, Option.bind_some]
    rw [List.map_cons, readLines, recordLine, hp.decryptLine hfits, cString_record_of_clean hx hk]
    simp only [readRecord_record _ _ _ hk, rebuildAll, hrebuild]
    cases readBack (cString x) e.2.v.dataDtype with
    | none => rfl
    | some v => exact ih hes _

/-- Entering records with distinct new keys leaves exactly these records under their keys. -/
theorem findNode_rebuildAll {es : List (Str × Kv)} {h h' : Hash} (hnd : (es.map Prod.fst).Nodup)
    (hnew : ∀ e ∈ es, h.findNode e.1 = none) (hr : rebuildAll es h = some h') :
    (∀ e ∈ es, ∃ v, rebuild e.2.v = some v ∧
      h'.findNode e.1 = some { v := v, authr := e.2.authr, authw := e.2.authw }) ∧
    ∀ k, k ∉ es.map Prod.fst → h'.findNode k = h.findNode k := by
  induction es generalizing h with
  | nil =>
    obtain rfl := Option.some.inj hr
    exact ⟨by simp, fun _ _ => rfl⟩
  | cons e es ih =>
    rw [List.map_cons, List.nodup_cons] at hnd
    obtain ⟨hnew₀, hnew⟩ := List.forall_mem_cons.mp hnew
    rw [rebuildAll, Option.bind_eq_some_iff] at hr
    obtain ⟨v, hv, hr⟩ := hr
    have hset := findNode_set h e.1 v e.2.authr e.2.authw
    have hne : ∀ e' ∈ es, e'.1 ≠ e.1 := fun e' he' heq =>
      hnd.1 (heq ▸ List.mem_map_of_mem he')
    obtain ⟨hin, hout⟩ := ih hnd.2
      (fun e' he' => by rw [hset, if_neg (hne e' he'), hnew e' he']) hr
    refine ⟨List.forall_mem_cons.mpr ⟨⟨v, hv, ?_⟩, hin⟩, fun k hk => ?_⟩
    · rw [hout _ hnd.1, hset, if_pos rfl, hnew₀, setEntry]
    · rw [List.map_cons, List.mem_cons, not_or] at hk
      rw [hout k hk.2, hset, if_neg hk.1]

theorem exists_rebuildAll {es : List (Str × Kv)} (hes : ∀ e ∈ es, ∃ v, rebuild e.2.v = some v)
    (h : Hash) : ∃ h', rebuildAll es h = some h' := by
  induction es generalizing h with
  | nil => exact ⟨h, rfl⟩
  | cons e es ih =>
    obtain ⟨⟨v, hv⟩, hes⟩ := List.forall_mem_cons.mp hes
    obtain ⟨h', hh'⟩ := ih hes (h.set e.1 v e.2.authr e.2.authw)
    exact ⟨h', by rw [rebuildAll, hv, Option.bind_some, hh']⟩

/-! ### The keys that reading leaves -/

theorem clean_of_readRecord {message : Str} (h0 : (0 : UInt8) ∉ message) {k : Str} {v : Value}
    {r w : UInt8} (h : readRecord message = some (some (k, v, r, w))) : Clean k := by
  rw [readRecord] at h
  split at h
  next a0 a1 a2 key arg args hsplit =>
    have hkey : key ∈ split message (byte ',') := by
      rw [hsplit]
      simp
    split at h
    next =>
      split_ifs at h
      · exact absurd h (by simp)
      · obtain ⟨value, -, hk⟩ := Option.map_eq_some_iff.mp h
        obtain ⟨rfl, -⟩ := Prod.mk.inj (Option.some.inj hk)
        exact clean_of_mem_split h0 hkey
    next => exact absurd h (by simp)
  next => exact absurd h (by simp)

/-- **Reading leaves clean keys**, apart from those that were there. -/
theorem readLines_keys {password : Int} {lines : List Str} {h h' : Hash} {b : Bool}
    (hr : readLines password lines h = some (b, h'))
    (hh : ∀ k n, h.findNode k = some n → Clean k) :
    ∀ k n, h'.findNode k = some n → Clean k := by
  induction lines generalizing h with
  | nil =>
    rw [readLines, Option.some.injEq, Prod.mk.injEq] at hr
    exact hr.2 ▸ hh
  | cons line lines ih =>
    rw [readLines] at hr
    split at hr
    next => exact absurd hr (by simp)
    next =>
      rw [Option.some.injEq, Prod.mk.injEq] at hr
      exact hr.2 ▸ hh
    -- a decrypted line is a C string
    next message hmessage =>
      have h0 : (0 : UInt8) ∉ message := by
        rw [decryptLine, Option.bind_eq_some_iff] at hmessage
        obtain ⟨pieces, -, hm⟩ := hmessage
        obtain ⟨m, -, hm⟩ := Option.map_eq_some_iff.mp hm
        obtain ⟨m, -, rfl⟩ := Option.map_eq_some_iff.mp hm
        exact not_mem_cString m
      split at hr
      next => exact absurd hr (by simp)
      next =>
        rw [Option.some.injEq, Prod.mk.injEq] at hr
        exact hr.2 ▸ hh
      next key value authr authw hrecord =>
        refine ih hr fun k n hk => ?_
        rw [findNode_set] at hk
        split_ifs at hk with heq
        · exact heq ▸ clean_of_readRecord h0 hrecord
        · exact hh k n hk

/-- Every line of a file that is read to its end has an array for its pieces. -/
theorem splittable_of_readLines {password : Int} {lines : List Str} {h h' : Hash}
    (hr : readLines password lines h = some (true, h')) :
    ∀ line ∈ lines, Splittable line (byte '\\') := by
  induction lines generalizing h with
  | nil => exact fun line hline => absurd hline (by simp)
  | cons line lines ih =>
    rw [readLines] at hr
    split at hr
    next => exact absurd hr (by simp)
    next => exact absurd (congrArg Prod.fst (Option.some.inj hr)) (by simp)
    next message hmessage =>
      have hfits := splittable_of_decryptLine (hmessage ▸ Option.some_ne_none _)
      split at hr
      next => exact absurd hr (by simp)
      next => exact absurd (congrArg Prod.fst (Option.some.inj hr)) (by simp)
      next => exact List.forall_mem_cons.mpr ⟨hfits, ih hr⟩

/-! ### The round trip -/

theorem read_saveText {h : Hash} {text pw : Str} {d : Int} (hpw : readInt pw = some (true, d))
    (htext : h.saveText = some text) :
    (new h.portNum).read (some text) pw
      = readLines d (h.entries.map recordLine) (new h.portNum) := by
  obtain ⟨hall, htext⟩ := saveEntries_eq_some.mp htext
  rw [read, hpw, htext]
  simp only [tokens_lines hall]

/-- With a password that is not positive, `read` gives up at the first line. -/
theorem readLines_of_nonpos {d : Int} (hd : d ≤ 0) {str : Str}
    (hfits : Splittable (encryptString modulus exponent str) (byte '\\')) (lines : List Str) (h : Hash) :
    readLines d (encryptString modulus exponent str :: lines) h = some (false, h) := by
  have hone : (str.map fun c => decrypt modulus d (encrypt modulus exponent c))
      = str.map fun _ => 1 := List.map_congr_left fun c _ => decrypt_of_nonpos hd _ _
  rw [readLines, decryptLine_encryptString _ hfits, hone]
  simp only [readRecord_of_nonpos]

end Hash

open Hash

/-- The round trip, on the tables. -/
theorem roundTrips_iff_exists {w : World} {pw : Str} : w.RoundTrips pw ↔ w.writable = true ∧
    ∃ text h', w.h.saveText = some text ∧
      (new w.h.portNum).read (some text) pw = some (true, h') ∧ w.h.Same h' := by
  constructor
  · rintro ⟨w₁, w₂, hsave, hread, hsame⟩
    rw [World.save] at hsave
    split_ifs at hsave with hw
    · obtain ⟨text, htext, hw₁⟩ := Option.map_eq_some_iff.mp hsave
      obtain ⟨-, rfl⟩ := Prod.mk.inj hw₁
      obtain ⟨⟨b, h'⟩, hr, hw₂⟩ := Option.map_eq_some_iff.mp hread
      obtain ⟨rfl, rfl⟩ := Prod.mk.inj hw₂
      exact ⟨hw, text, h', htext, hr, hsame⟩
    · exact absurd (congrArg Prod.fst (Option.some.inj hsave)) (by simp)
  · rintro ⟨hw, text, h', htext, hr, hsame⟩
    have hsave : w.save = some (true, { w with csv := some text }) := by
      rw [World.save, if_pos hw, htext, Option.map_some]
    refine ⟨_, { w with csv := some text, h := h' }, hsave, ?_, hsame⟩
    rw [World.read]
    simp only [hr, Option.map_some]

/-- A record of moderate length has a line that `split` can count. -/
theorem splittable_recordLine {e : Str × Kv} (h : (record e).length < 2 ^ 28) :
    Splittable (recordLine e) (byte '\\') := by
  have hmodulus : ((1483513 : ℕ) : Int) = modulus := rfl
  have hlen : (recordLine e).length ≤ 11 * (record e).length := by
    rw [recordLine, ← hmodulus]
    exact length_encryptString_le (by norm_num) (by norm_num) exponent (record e)
  refine ⟨by omega, ?_⟩
  rw [recordLine, count_encryptString]
  omega

/-- A string that `split` can count after its encryption. -/
theorem length_of_splittable {str : Str}
    (h : Splittable (encryptString modulus exponent str) (byte '\\')) : str.length + 1 < 2 ^ 31 := by
  have hcount := h.2
  rwa [count_encryptString] at hcount

theorem Storable.printable {e : Str × Kv} (h : Storable e) : Printable e := by
  obtain ⟨v, hv, -⟩ := (exists_rebuild_same_iff _).mpr h.2.1
  obtain ⟨x, hx, -⟩ := Option.bind_eq_some_iff.mp hv
  have hlen := length_of_splittable h.2.2
  exact ⟨⟨x, hx⟩, by omega⟩

theorem Storable.readable {e : Str × Kv} (h : Storable e) :
    Clean e.1 ∧ (∃ x, e.2.v.dataDecode = some x) ∧ Splittable (recordLine e) (byte '\\') :=
  ⟨h.1, h.printable.1, h.2.2⟩

/-- A table whose entries can all be carried comes back. -/
theorem roundTrips_of_storable {w : World} {pw : Str} {d : Int} (hw : w.writable = true)
    (hpw : readInt pw = some (true, d)) (hp : Opens d ∨ w.h.entries = [])
    (hall : ∀ e ∈ w.h.entries, Storable e) : w.RoundTrips pw := by
  have hrebuild : ∀ e ∈ w.h.entries, ∃ v, rebuild e.2.v = some v ∧ e.2.v.Same v :=
    fun e he => (exists_rebuild_same_iff _).mpr (hall e he).2.1
  have htext : w.h.saveText = some _ :=
    saveEntries_eq_some.mpr ⟨fun e he => (hall e he).printable, rfl⟩
  obtain ⟨h', hh'⟩ := exists_rebuildAll (fun e he => (hrebuild e he).imp fun _ h => h.1)
    (new w.h.portNum)
  have hlines : readLines d (w.h.entries.map recordLine) (new w.h.portNum) = some (true, h') := by
    rcases hp with hp | hnil
    · rw [readLines_entries hp fun e he => (hall e he).readable, hh', Option.map_some]
    · -- an empty file is read under any password
      rw [hnil] at hh' ⊢
      rw [List.map_nil, readLines, ← Option.some.inj hh']
  refine roundTrips_iff_exists.mpr ⟨hw, _, h', htext, ?_, fun k => ?_⟩
  · rw [read_saveText hpw htext, hlines]
  · obtain ⟨hin, hout⟩ := findNode_rebuildAll w.h.keys_nodup (fun _ _ => rfl) hh'
    cases hk : w.h.findNode k with
    | none =>
      rw [hout k, findNode_new]
      · exact .none
      · intro hmem
        obtain ⟨e, he, rfl⟩ := List.mem_map.mp hmem
        rw [findNode_eq_some_iff.mpr he] at hk
        exact absurd hk (by simp)
    | some n =>
      have hmem := findNode_eq_some_iff.mp hk
      -- what was entered under the key is the value that was rebuilt
      obtain ⟨v, hv, hfind⟩ := hin _ hmem
      obtain ⟨v', hv', hsame⟩ := hrebuild _ hmem
      obtain rfl := Option.some.inj (hv.symm.trans hv')
      rw [hfind]
      exact .some ⟨hsame, rfl, rfl⟩

/-- A table that comes back has entries that can all be carried. -/
theorem storable_of_roundTrips {w : World} {pw : Str} {d : Int}
    (hpw : readInt pw = some (true, d)) (hp : 0 < d → Opens d) (hrt : w.RoundTrips pw) :
    (0 < d ∨ w.h.entries = []) ∧ ∀ e ∈ w.h.entries, Storable e := by
  obtain ⟨-, text, h', htext, hr, hsame⟩ := roundTrips_iff_exists.mp hrt
  have hdec := (saveEntries_eq_some.mp htext).1
  rw [read_saveText hpw htext] at hr
  have hfits : ∀ e ∈ w.h.entries, Splittable (recordLine e) (byte '\\') := fun e he =>
    splittable_of_readLines hr _ (List.mem_map_of_mem he)
  by_cases hnil : w.h.entries = []
  · exact ⟨Or.inr hnil, by simp [hnil]⟩
  have hpos : 0 < d := by
    -- under such a password the first line is damaged
    by_contra hneg
    obtain ⟨e, es, hes⟩ := List.exists_cons_of_ne_nil hnil
    rw [hes, List.map_cons, recordLine, readLines_of_nonpos (by omega)] at hr
    swap
    · exact hfits e (hes ▸ List.mem_cons_self ..)
    exact absurd (congrArg Prod.fst (Option.some.inj hr)) (by simp)
  -- the keys are clean, so every record was entered under its own key
  have hclean : ∀ e ∈ w.h.entries, Clean e.1 := by
    intro e he
    have hrel := hsame e.1
    rw [findNode_eq_some_iff.mpr he] at hrel
    cases hf : h'.findNode e.1 with
    | none =>
      rw [hf] at hrel
      cases hrel
    | some n => exact readLines_keys hr (by simp) _ n hf
  rw [readLines_entries (hp hpos) fun e he => ⟨hclean e he, (hdec e he).1, hfits e he⟩] at hr
  obtain ⟨h'', hh', heq⟩ := Option.map_eq_some_iff.mp hr
  obtain rfl : h'' = h' := congrArg Prod.snd heq
  obtain ⟨hin, -⟩ := findNode_rebuildAll w.h.keys_nodup (fun _ _ => rfl) hh'
  refine ⟨Or.inl hpos, fun e he => ⟨hclean e he, (exists_rebuild_same_iff _).mp ?_, hfits e he⟩⟩
  obtain ⟨v, hv, hfind⟩ := hin e he
  have hrel := hsame e.1
  rw [findNode_eq_some_iff.mpr he, hfind] at hrel
  cases hrel with
  | some hs => exact ⟨v, hv, hs.v⟩

end MuseKv
