import MuseKv.Server.Sessions

/-!
# The commands that a session receives

A command is written with one `send`, and nothing marks its end: `com += "\0"` appends the empty
string.  The other side takes for a command what one `recv` returns, up to 1024 bytes, so it sees the
commands that were sent just when the stream is cut between them, and none of them fills the buffer:
**`framed_iff`**.
-/

namespace MuseKv

/-- A command that a session can be sent: not empty, without a NUL, and not `quit`. -/
structure Writable (com : Str) : Prop where
  ne_nil : com ≠ []
  nul_free : (0 : UInt8) ∉ com
  ne_quit : com ≠ lit "quit"

/-- What successive calls of `recv` can return of a stream. -/
structure Cuts (chunks : List Str) (stream : Str) : Prop where
  flatten : chunks.flatten = stream
  length : ∀ chunk ∈ chunks, 1 ≤ chunk.length ∧ chunk.length ≤ 1024

/-- Whatever the memory behind the receive buffer holds, the strings that are passed on are the
commands. -/
def Framed (coms chunks : List Str) : Prop := ∀ rest, serverTask rest chunks = coms

variable {coms chunks : List Str}

/-! ### A chunk as a string -/

theorem received_short {rest chunk : Str} (hnul : (0 : UInt8) ∉ chunk) (hlen : chunk.length < 1024) :
    received rest chunk = chunk := by
  rw [received, if_pos hlen, cString_of_not_mem hnul]

theorem received_nil {chunk : Str} (hnul : (0 : UInt8) ∉ chunk) : received [] chunk = chunk := by
  rw [received, List.append_nil, ite_self, cString_of_not_mem hnul]

/-- A full buffer is read on behind its end. -/
theorem received_long {rest chunk : Str} (hnul : (0 : UInt8) ∉ chunk) (hlen : ¬chunk.length < 1024) :
    received rest chunk = chunk ++ cString rest := by
  rw [received, if_neg hlen, cString_append hnul]

/-! ### The loop -/

/-- The strings that are passed on are those in front of the first `quit`. -/
theorem serverTask_eq (rest : Str) (chunks : List Str) :
    serverTask rest chunks = (chunks.map (received rest)).takeWhile (· ≠ lit "quit") := by
  induction chunks with
  | nil => rfl
  | cons chunk chunks ih =>
    rw [serverTask, List.map_cons]
    split_ifs with hquit
    · rw [List.takeWhile_cons_of_neg (by simpa using hquit)]
    · rw [List.takeWhile_cons_of_pos (by simpa using hquit), ih]

/-- A prefix with the same bytes is everything, as no chunk is empty. -/
theorem eq_of_prefix (h : Cuts chunks coms.flatten) (hpre : coms <+: chunks) : chunks = coms := by
  obtain ⟨more, rfl⟩ := hpre
  have hflatten := h.flatten
  rw [List.flatten_append] at hflatten
  have hnone := List.append_cancel_left (hflatten.trans (List.append_nil _).symm)
  rw [List.flatten_eq_nil_iff] at hnone
  have hmore : more = [] := by
    apply List.eq_nil_iff_forall_not_mem.mpr
    intro chunk hchunk
    have hpos := (h.length chunk (List.mem_append_right _ hchunk)).1
    rw [hnone chunk hchunk] at hpos
    exact absurd hpos (by decide)
  rw [hmore, List.append_nil]

/-- **The commands come through just when every one of them is a chunk of its own**, and shorter than
the receive buffer. -/
theorem framed_iff (hcoms : ∀ com ∈ coms, Writable com) (hcut : Cuts chunks coms.flatten) :
    Framed coms chunks ↔ chunks = coms ∧ ∀ com ∈ coms, com.length < 1024 := by
  have hnul : ∀ chunk ∈ chunks, (0 : UInt8) ∉ chunk := by
    intro chunk hchunk h0
    have hstream : (0 : UInt8) ∈ coms.flatten := by
      rw [← hcut.flatten]
      exact List.mem_flatten.mpr ⟨chunk, hchunk, h0⟩
    obtain ⟨com, hcom, h0⟩ := List.mem_flatten.mp hstream
    exact (hcoms com hcom).nul_free h0
  constructor
  · intro hframed
    -- with nothing behind the buffer, the strings are the chunks in front of the first `quit`
    have hmap : chunks.map (received []) = chunks := by
      refine (List.map_congr_left fun chunk hchunk => ?_).trans (List.map_id chunks)
      exact received_nil (hnul chunk hchunk)
    have heq : chunks = coms := by
      apply eq_of_prefix hcut
      rw [← hframed [], serverTask_eq, hmap]
      exact List.takeWhile_prefix _
    refine ⟨heq, fun com hcom => ?_⟩
    by_contra hlong
    -- with a byte behind the buffer, a command that fills it gets longer
    have hall := serverTask_eq [byte 'x'] chunks
    rw [hframed, heq] at hall
    have hwhole : coms = coms.map (received [byte 'x']) := by
      refine hall.trans ((List.takeWhile_prefix _).eq_of_length ?_)
      rw [← hall, List.length_map]
    have hsame : received [byte 'x'] com = com := by
      have hmap : coms.map (received [byte 'x']) = coms.map id := by rw [← hwhole, List.map_id]
      exact List.map_inj_left.mp hmap com hcom
    have hlength := congrArg List.length hsame
    rw [received_long (hcoms com hcom).nul_free hlong, List.length_append] at hlength
    have hone : (cString [byte 'x']).length = 1 := by decide
    omega
  · rintro ⟨rfl, hlen⟩ rest
    have hmap : chunks.map (received rest) = chunks := by
      refine (List.map_congr_left fun chunk hchunk => ?_).trans (List.map_id chunks)
      exact received_short (hnul chunk hchunk) (hlen chunk hchunk)
    rw [serverTask_eq, hmap, List.takeWhile_eq_self_iff]
    intro chunk hchunk
    simpa using (hcoms chunk hchunk).ne_quit

/-- Two commands, with a reply awaited in between. -/
theorem framed_two : Framed [lit "make k v", lit "get k"] [lit "make k v", lit "get k"] := by
  refine (framed_iff ?_ ⟨rfl, ?_⟩).mpr ⟨rfl, ?_⟩
  · intro com hcom
    simp only [List.mem_cons, List.not_mem_nil, or_false] at hcom
    rcases hcom with rfl | rfl <;> exact ⟨by decide, by decide, by decide⟩
  · intro chunk hchunk
    simp only [List.mem_cons, List.not_mem_nil, or_false] at hchunk
    rcases hchunk with rfl | rfl <;> decide
  · intro com hcom
    simp only [List.mem_cons, List.not_mem_nil, or_false] at hcom
    rcases hcom with rfl | rfl <;> decide

/-- Two commands that arrive together are taken for one. -/
theorem not_framed_together : ¬ ∀ coms chunks : List Str, (∀ com ∈ coms, Writable com) →
    Cuts chunks coms.flatten → Framed coms chunks := by
  intro hall
  have hcoms : ∀ com ∈ [lit "get a", lit "get b"], Writable com := by
    intro com hcom
    simp only [List.mem_cons, List.not_mem_nil, or_false] at hcom
    rcases hcom with rfl | rfl <;> exact ⟨by decide, by decide, by decide⟩
  have hcut : Cuts [lit "get aget b"] [lit "get a", lit "get b"].flatten := by
    refine ⟨by decide, fun chunk hchunk => ?_⟩
    rw [List.mem_singleton.mp hchunk]
    decide
  exact absurd (hall _ _ hcoms hcut []) (by decide)

end MuseKv
