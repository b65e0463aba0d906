import MuseKv.Command.Lifetime
import MuseKv.Command.Equiv.Execute
import MuseKv.Command.Equiv.RoundTrip

/-!
# What survives a restart

Whatever happens to a server, its file is the text of the table that was written last, unless a save was
torn since (`csv_of_lifetime`).  So `read` brings back the entries of that table, into whatever table is there
(**`restores`**): what was written behind the last snapshot is lost with the process, and nothing else.
-/

namespace MuseKv

open Kvstore Command

variable {e : LifeEvent} {es : List LifeEvent} {w w' : World} {last : Option Hash}

theorem executeWords_save {ws : List Str} (hws : ws = [lit "save"] ∨ ws = [lit "xsave"])
    (auth : UInt8) (t : Int) (w : World) : executeWords ws auth t w =
      w.save.map fun r => (if r.1 then confirmMsg else lit "ERROR : NO FILE", r.2) := by
  rcases hws with rfl | rfl
  · rfl
  · rfl

theorem csv_of_save {b : Bool} (h : w.save = some (b, w')) :
    w'.csv = if w.writable then w.h.saveText else w.csv := by
  rw [World.save] at h
  split_ifs at h with hw
  · obtain ⟨text, htext, heq⟩ := Option.map_eq_some_iff.mp h
    obtain ⟨-, rfl⟩ := Prod.mk.inj heq
    rw [if_pos hw, htext]
  · obtain ⟨-, rfl⟩ := Prod.mk.inj (Option.some.inj h)
    rw [if_neg hw]

/-- Every other command leaves the file. -/
theorem csv_of_executeWords {ws : List Str} {auth : UInt8} {t : Int} {reply : Str}
    (hws : ¬ (ws = [lit "save"] ∨ ws = [lit "xsave"]))
    (h : executeWords ws auth t w = some (reply, w')) : w'.csv = w.csv := by
  rcases executeWords_cases h with rfl | hstep | ⟨hsave, -⟩ | ⟨pw, b, -, hread⟩
  · rfl
  · obtain ⟨_, _, _, _, _, _, -, -, -, -, -, -, rfl⟩ := hstep
    rfl
  · exact absurd hsave hws
  · obtain ⟨r, -, heq⟩ := Option.map_eq_some_iff.mp hread
    obtain ⟨-, rfl⟩ := Prod.mk.inj heq
    rfl

/-- **One event** writes the table of its moment to the file, or leaves the file, unless it tears it. -/
theorem LifeEvent.csv_step (h : e.step w = some w') (hwhole : (e.tears && w.writable) = false) :
    w'.csv = if e.saves && w.writable then w.h.saveText else w.csv := by
  cases e with
  | command r =>
    obtain ⟨⟨reply, v⟩, hexec, rfl⟩ := Option.map_eq_some_iff.mp h
    by_cases hws : words r.com = [lit "save"] ∨ words r.com = [lit "xsave"]
    · have hsaves : (LifeEvent.command r).saves = true := by simpa [LifeEvent.saves] using hws
      rw [execute, executeWords_save hws] at hexec
      obtain ⟨r', hr', heq⟩ := Option.map_eq_some_iff.mp hexec
      obtain ⟨-, rfl⟩ := Prod.mk.inj heq
      rw [hsaves, Bool.true_and, csv_of_save hr']
    · have hsaves : (LifeEvent.command r).saves = false := by simpa [LifeEvent.saves] using hws
      rw [hsaves, Bool.false_and, if_neg Bool.false_ne_true]
      exact csv_of_executeWords hws hexec
  | autoSave =>
    obtain ⟨r, hr, rfl⟩ := Option.map_eq_some_iff.mp h
    rw [LifeEvent.saves, Bool.true_and, csv_of_save hr]
  | restart =>
    obtain rfl := Option.some.inj h
    rfl
  | disk writable =>
    obtain rfl := Option.some.inj h
    rfl
  | torn written ends =>
    obtain rfl := Option.some.inj h
    rw [LifeEvent.tears, Bool.true_and] at hwhole
    rw [LifeEvent.saves, Bool.false_and, hwhole]
    rfl

/-- **The file is the text of the table that was written last.** -/
theorem csv_of_lifetime (hrun : lifetime es w = some w')
    (hcsv : ∀ h₁, last = some h₁ → w.csv = h₁.saveText) :
    ∀ h₁, lastSaved es w last = some h₁ → w'.csv = h₁.saveText := by
  induction es generalizing w last with
  | nil =>
    obtain rfl := Option.some.inj hrun
    exact hcsv
  | cons e es ih =>
    obtain ⟨v, hv, hrun⟩ := Option.bind_eq_some_iff.mp hrun
    rw [lastSaved, hv, Option.elim_some]
    refine ih hrun fun h₁ hlast => ?_
    by_cases htear : (e.tears && w.writable) = true
    · -- behind a torn file no table counts as written
      have hsaves : (e.saves && w.writable) = false := by
        cases e with
        | torn => rfl
        | command | autoSave | restart | disk => exact absurd htear (by simp [LifeEvent.tears])
      rw [hsaves, if_neg Bool.false_ne_true, if_pos htear] at hlast
      exact absurd hlast (by simp)
    · rw [if_neg htear] at hlast
      rw [LifeEvent.csv_step hv (by simpa using htear)]
      split_ifs at hlast ⊢ with hsaves
      · rw [← Option.some.inj hlast]
      · exact hcsv h₁ hlast

/-! ### Reading it back -/

namespace Hash

/-- Records with distinct keys are entered into any table. -/
theorem findNode_rebuildAll_over {es : List (Str × Kv)} {h h' : Hash}
    (hnd : (es.map Prod.fst).Nodup) (hr : rebuildAll es h = some h') :
    (∀ e ∈ es, ∃ v, rebuild e.2.v = some v ∧
      h'.findNode e.1 = some (setEntry v e.2.authr e.2.authw (h.findNode e.1))) ∧
    ∀ k, k ∉ es.map Prod.fst → h'.findNode k = h.findNode k := by
  induction es generalizing h with
  | nil =>
    obtain rfl := Option.some.inj hr
    exact ⟨by simp, fun _ _ => rfl⟩
  | cons e es ih =>
    rw [List.map_cons, List.nodup_cons] at hnd
    rw [rebuildAll, Option.bind_eq_some_iff] at hr
    obtain ⟨v, hv, hr⟩ := hr
    have hset := findNode_set h e.1 v e.2.authr e.2.authw
    have hne : ∀ e' ∈ es, e'.1 ≠ e.1 := fun e' he' heq =>
      hnd.1 (heq ▸ List.mem_map_of_mem he')
    obtain ⟨hin, hout⟩ := ih hnd.2 hr
    refine ⟨List.forall_mem_cons.mpr ⟨⟨v, hv, ?_⟩, fun e' he' => ?_⟩, fun k hk => ?_⟩
    · rw [hout _ hnd.1, hset, if_pos rfl]
    · obtain ⟨v', hv', hnode⟩ := hin e' he'
      rw [hset, if_neg (hne e' he')] at hnode
      exact ⟨v', hv', hnode⟩
    · rw [List.map_cons, List.mem_cons, not_or] at hk
      rw [hout k hk.2, hset, if_neg hk.1]

/-- **Reading the text of a table** into another one. -/
theorem read_saveText_over {h h₁ : Hash} {text pw : Str} {d : Int}
    (hpw : readInt pw = some (true, d)) (hp : Opens d) (hall : ∀ e ∈ h₁.entries, Storable e)
    (htext : h₁.saveText = some text) :
    ∃ h', h.read (some text) pw = some (true, h') ∧
      ∀ k, Restored (h₁.findNode k) (h.findNode k) (h'.findNode k) := by
  obtain ⟨hdec, hlines⟩ := saveEntries_eq_some.mp htext
  have hrebuild : ∀ e ∈ h₁.entries, ∃ v, rebuild e.2.v = some v ∧ e.2.v.Same v :=
    fun e he => (exists_rebuild_same_iff _).mpr (hall e he).2.1
  obtain ⟨h', hh'⟩ := exists_rebuildAll (fun e he => (hrebuild e he).imp fun _ h => h.1) h
  refine ⟨h', ?_, fun k => ?_⟩
  · rw [read, hpw, hlines]
    simp only [tokens_lines hdec]
    rw [readLines_entries hp fun e he => (hall e he).readable, hh', Option.map_some]
  · obtain ⟨hin, hout⟩ := findNode_rebuildAll_over h₁.keys_nodup hh'
    cases hk : h₁.findNode k with
    | none =>
      refine hout k fun hmem => ?_
      obtain ⟨e, he, rfl⟩ := List.mem_map.mp hmem
      rw [findNode_eq_some_iff.mpr he] at hk
      exact absurd hk (by simp)
    | some n =>
      have hmem := findNode_eq_some_iff.mp hk
      obtain ⟨v, hv, hfind⟩ := hin _ hmem
      obtain ⟨v', hv', hsame⟩ := hrebuild _ hmem
      obtain rfl := Option.some.inj (hv.symm.trans hv')
      exact ⟨v, hsame, hfind⟩

end Hash

/-- **What was saved last comes back.**  Whatever a server did, when no save was torn since, `read`
with a password that opens the file, at a node that takes it, enters the entries of the table of the
last snapshot: their values and levels, with the lifetimes of the entries that are there; all other
entries stay. -/
theorem restores {h₁ : Hash} {com pw : Str} {d : Int} {auth : UInt8} {t : Int}
    (hrun : lifetime es w = some w')
    (hlast : lastSaved es w none = some h₁) (hall : ∀ e ∈ h₁.entries, Storable e)
    (hws : words com = [lit "read", pw]) (hhere : notHere w'.h pw = false)
    (hpw : readInt pw = some (true, d)) (hp : Hash.Opens d) :
    ∃ w'', execute com auth t w' = some (confirmMsg, w'') ∧
      ∀ k, Restored (h₁.findNode k) (w'.h.findNode k) (w''.h.findNode k) := by
  have htext : w'.csv = h₁.saveText := csv_of_lifetime hrun (fun _ h => absurd h (by simp)) h₁ hlast
  have hsave : h₁.saveText = some _ :=
    Hash.saveEntries_eq_some.mpr ⟨fun e he => (hall e he).printable, rfl⟩
  obtain ⟨h', hread, hrestored⟩ := Hash.read_saveText_over (h := w'.h) hpw hp hall hsave
  refine ⟨{ w' with h := h' }, ?_, hrestored⟩
  have hexec : execute com auth t w' = (w'.read pw).map fun r =>
      (if r.1 then confirmMsg else lit "ERROR : FAIL TO READ FILE", r.2) := by
    rw [execute, hws, executeWords, if_neg (by decide), if_neg (by simpa using hhere)]
    rfl
  rw [hexec, World.read, htext, hsave, hread]
  rfl

/-- A text under `k`, and nothing else. -/
def oneText : Hash := (Hash.new 8000).set (lit "k") (.string (lit "v")) 0 0

theorem mem_oneText {e : Str × Kv} (he : e ∈ oneText.entries) :
    e = (lit "k", { v := .string (lit "v"), authr := 0, authw := 0 }) := by
  have hnode := Hash.findNode_eq_some_iff.mpr he
  rw [oneText, Hash.findNode_set] at hnode
  split_ifs at hnode with hk
  · exact Prod.ext hk (Option.some.inj hnode).symm
  · exact absurd hnode (by simp)

/-- A save is torn, the text is saved whole and overwritten, and the process ends. -/
def crashed : List LifeEvent :=
  [.torn [] false, .command ⟨lit "make k v", 0, 0⟩, .autoSave, .command ⟨lit "make k x", 0, 1⟩, .restart]

/-- The saved text comes back. -/
theorem restores_crashed : ∃ w' w'', lifetime crashed (World.fresh 8000) = some w' ∧
    w'.h.findNode (lit "k") = none ∧
    execute (lit "read 409") 0 2 w' = some (confirmMsg, w'') ∧
    ∃ n, w''.h.findNode (lit "k") = some n ∧ n.v = .string (lit "v") := by
  have hall : ∀ e ∈ oneText.entries, Storable e := by
    intro e he
    obtain rfl := mem_oneText he
    exact ⟨⟨by decide, by decide⟩, ⟨by decide, by decide⟩, splittable_recordLine (by decide)⟩
  obtain ⟨text, htext⟩ : ∃ text, oneText.saveText = some text :=
    ⟨_, Hash.saveEntries_eq_some.mpr ⟨fun e he => (hall e he).printable, rfl⟩⟩
  have htorn : (LifeEvent.torn [] false).step (World.fresh 8000) =
      some { World.fresh 8000 with csv := some [] } := rfl
  have hmake : (LifeEvent.command ⟨lit "make k v", 0, 0⟩).step { World.fresh 8000 with csv := some [] } =
      some { World.fresh 8000 with h := oneText, csv := some [] } := rfl
  have hsave : LifeEvent.autoSave.step { World.fresh 8000 with h := oneText, csv := some [] } =
      some { World.fresh 8000 with h := oneText, csv := some text } := by
    have hsaved : World.save { World.fresh 8000 with h := oneText, csv := some [] } =
        oneText.saveText.map fun text => (true, { World.fresh 8000 with h := oneText, csv := text }) :=
      if_pos rfl
    rw [LifeEvent.step, hsaved, htext]
    rfl
  have hover : (LifeEvent.command ⟨lit "make k x", 0, 1⟩).step
      { World.fresh 8000 with h := oneText, csv := some text } =
      some { World.fresh 8000 with h := oneText.set (lit "k") (.string (lit "x")) 0 0,
                                   csv := some text } := rfl
  have hlife : lifetime crashed (World.fresh 8000) =
      some { World.fresh 8000 with csv := some text } := by
    rw [crashed, lifetime, htorn, Option.bind_some, lifetime, hmake, Option.bind_some, lifetime, hsave, Option.bind_some, lifetime,
      hover]
    rfl
  have hlast : lastSaved crashed (World.fresh 8000) none = some oneText := by
    rw [crashed, lastSaved, htorn, Option.elim_some, lastSaved, hmake, Option.elim_some, lastSaved, hsave, Option.elim_some, lastSaved,
      hover]
    rfl
  have hcom : words (lit "read 409") = [lit "read", lit "409"] := by decide
  obtain ⟨w'', hexec, hrestored⟩ := @restores _ _ _ _ _ _ 409 0 2 hlife hlast hall hcom rfl
    (by decide) fun c => Encrypt.decrypt_encrypt_modulus (by decide) (by decide) c
  have hk : oneText.findNode (lit "k") =
      some { v := .string (lit "v"), authr := 0, authw := 0 } := by
    rw [oneText, Hash.findNode_set, if_pos rfl]
    rfl
  have hkey := hrestored (lit "k")
  rw [hk] at hkey
  obtain ⟨v, hsame, hnode⟩ := hkey
  refine ⟨_, w'', hlife, rfl, hexec, _, hnode, ?_⟩
  match v with
  | .string x =>
    obtain rfl : lit "v" = x := hsame
    rfl

end MuseKv
