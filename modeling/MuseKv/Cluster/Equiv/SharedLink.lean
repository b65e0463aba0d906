import MuseKv.Cluster.Equiv.Coverage
import MuseKv.Cluster.SharedLink

/-!
# Which reply a thread receives

The pieces of the replies leave the connection in the order in which they were put on it, whoever takes
them (`Conserved`).  So the `n`-th thread that receives gets the `n`-th piece, and every client gets its
own reply only if each of these pieces is the whole reply to the command of its receiver
(**`ownReplies_iff`**).
-/

namespace MuseKv.SharedLink

variable {ι : Type} [DecidableEq ι] {client : ι → Session × Str} {index : ℕ}

/-! ### The steps -/

/-- What a step does to the replies: nothing, or some pieces are sent, or one is received. -/
theorem step_cases {s s' : SharedLink ι} {e : Step ι} (h : step client index s e = some s') :
    (receivers [e] = [] ∧ s'.answers = s.answers ∧
        ∃ ps, s'.replies = s.replies ++ ps ∧ s'.sent = s.sent ++ ps) ∨
      ∃ i memory p, e = .receive i memory ∧ s.replies = p :: s'.replies ∧ s'.sent = s.sent ∧
        s'.answers = s.answers ++ [(i, p, MuseKv.received memory p.text)] := by
  cases e with
  | forward i t connected =>
    rw [step] at h
    split_ifs at h
    obtain ⟨x, -, h⟩ := Option.bind_eq_some_iff.mp h
    split at h
    next n com _ =>
      split_ifs at h
      obtain rfl := Option.some.inj h
      exact Or.inl ⟨rfl, rfl, [], (List.append_nil _).symm, (List.append_nil _).symm⟩
    next => exact absurd h (by simp)
  | accept memory =>
    rw [step] at h
    split at h
    next => exact absurd h (by simp)
    next =>
      obtain rfl := Option.some.inj h
      exact Or.inl ⟨rfl, rfl, [], (List.append_nil _).symm, (List.append_nil _).symm⟩
  | reply n t connected =>
    obtain ⟨r, -, h⟩ := Option.bind_eq_some_iff.mp h
    obtain ⟨x, -, h⟩ := Option.bind_eq_some_iff.mp h
    split at h
    next msg _ =>
      -- the owner puts its reply behind those that are on the way
      obtain rfl := Option.some.inj h
      exact Or.inl ⟨rfl, rfl, _, rfl, rfl⟩
    next => exact absurd h (by simp)
  | other ss com t connected =>
    obtain ⟨x, -, rfl⟩ := Option.map_eq_some_iff.mp h
    exact Or.inl ⟨rfl, rfl, [], (List.append_nil _).symm, (List.append_nil _).symm⟩
  | receive i memory =>
    rw [step] at h
    split_ifs at h
    split at h
    next => exact absurd h (by simp)
    next p ps hreplies =>
      -- the thread takes the first piece, whoever it was meant for
      obtain rfl := Option.some.inj h
      exact Or.inr ⟨i, memory, p, rfl, hreplies, rfl, rfl⟩

/-! ### The account -/

/-- What was put on the connection back, and who took it: the pieces sent so far are those received, in
this order, and then those on the way. -/
structure Conserved (s : SharedLink ι) (es : List (Step ι)) : Prop where
  sent : s.sent = s.answers.map (fun a => a.2.1) ++ s.replies
  read : List.Forall₂ (fun r a => a.1 = r.1 ∧ a.2.2 = MuseKv.received r.2 a.2.1.text)
    (receivers es) s.answers

/-- **One step** keeps the account. -/
theorem Conserved.step {s s' : SharedLink ι} {es : List (Step ι)} {e : Step ι}
    (h : Conserved s es) (hs : step client index s e = some s') : Conserved s' (es ++ [e]) := by
  have hrec : receivers (es ++ [e]) = receivers es ++ receivers [e] := List.filterMap_append
  rcases step_cases hs with ⟨hr, ha, ps, hq, hsent⟩ | ⟨i, memory, p, rfl, hq, hsent, ha⟩
  · refine ⟨?_, ?_⟩
    · rw [hsent, ha, hq, h.sent, List.append_assoc]
    · rw [hrec, hr, List.append_nil, ha]
      exact h.read
  · refine ⟨?_, ?_⟩
    · -- the piece at the head moves from the connection to the answers
      rw [hsent, h.sent, hq, ha, List.map_append, List.append_assoc]
      rfl
    · rw [hrec, ha]
      exact List.rel_append h.read (.cons ⟨rfl, rfl⟩ .nil)

/-- **A run** keeps the account. -/
theorem Conserved.run {s s' : SharedLink ι} {es es' : List (Step ι)} (h : Conserved s es)
    (hs : run client index es' s = some s') : Conserved s' (es ++ es') := by
  induction es' generalizing s es with
  | nil =>
    obtain rfl := Option.some.inj hs
    rwa [List.append_nil]
  | cons e es' ih =>
    obtain ⟨u, hu, hs⟩ := Option.bind_eq_some_iff.mp hs
    have hrun := ih (h.step hu) hs
    rwa [List.append_assoc] at hrun

/-- A relation between two lists in step that speaks of the second one only. -/
theorem forall₂_iff_forall {α β : Type} {R S : α → β → Prop} {P : β → Prop}
    (hS : ∀ a b, R a b → (S a b ↔ P b)) {l : List α} {m : List β} (h : List.Forall₂ R l m) :
    List.Forall₂ S l m ↔ ∀ b ∈ m, P b := by
  induction h with
  | nil => simp
  | cons hab _ ih => rw [List.forall₂_cons, List.forall_mem_cons, hS _ _ hab, ih]

/-- **Every client is sent the reply to its own command if and only if** each thread that receives gets a
piece that is the whole reply to its command, in the order in which the owner sent the pieces. -/
theorem ownReplies_iff {requester owner : Server} {session : Session} {es : List (Step ι)}
    {s : SharedLink ι} (hs : run client index es (start requester owner session) = some s) :
    OwnReplies s ↔ InTurn es s.sent := by
  have h : Conserved s ([] ++ es) := Conserved.run ⟨rfl, .nil⟩ hs
  rw [List.nil_append] at h
  have hlen : (receivers es).length = (s.answers.map fun a => a.2.1).length := by
    rw [h.read.length_eq, List.length_map]
  have hown : OwnReplies s ↔ ∀ a ∈ s.answers, a.2.1.origin = some a.1 ∧ a.2.2 = a.2.1.reply :=
    ⟨fun hall a ha => hall a.1 a.2.1 a.2.2 ha, fun hall i p text ha => hall (i, p, text) ha⟩
  rw [InTurn, h.sent, hlen, List.take_left, List.forall₂_map_right_iff, hown]
  refine (forall₂_iff_forall (fun r a ha => ?_) h.read).symm
  rw [Suits, ha.1, ha.2]

/-- Two clients of the first of two nodes: one reads `k`, the other one reads `a`, and the second
node owns both keys. -/
def twoClients : ℕ → Session × Str
  | 0 => ({}, lit "get k")
  | _ => ({}, lit "get a")

/-- The connection between the two nodes, before any command. -/
def twoStart : SharedLink ℕ :=
  start (Distribute.twoNodes (lit "v") 0) (Distribute.twoNodes (lit "v") 1) {}

/-- Both commands are on their way, are handled in their order, and the replies are taken in it. -/
def inOrder : List (Step ℕ) :=
  [.forward 0 0 true, .forward 1 0 true, .accept [], .accept [], .reply 0 0 true, .reply 0 0 true,
    .receive 0 [], .receive 1 []]

/-- As before, but the second thread is the first to receive. -/
def crossed : List (Step ℕ) :=
  [.forward 0 0 true, .forward 1 0 true, .accept [], .accept [], .reply 0 0 true, .reply 0 0 true,
    .receive 1 [], .receive 0 []]

theorem ownReplies_inOrder : ∃ s, run twoClients 0 inOrder twoStart = some s ∧ s.answers ≠ [] ∧
    OwnReplies s := by
  obtain ⟨s, hs, hanswers, hsent⟩ : ∃ s, run twoClients 0 inOrder twoStart = some s ∧ s.answers ≠ [] ∧
      s.sent = [⟨some 0, lit "v", lit "v"⟩,
        ⟨some 1, lit "ERROR : NO SUCH KEY (a)", lit "ERROR : NO SUCH KEY (a)"⟩] :=
    ⟨_, rfl, by simp, rfl⟩
  refine ⟨s, hs, hanswers, (ownReplies_iff hs).mpr ?_⟩
  rw [hsent]
  exact .cons ⟨rfl, by decide⟩ (.cons ⟨rfl, by decide⟩ .nil)

/-- **Two clients get each other's replies**: `get a` is answered with the text under `k`. -/
theorem not_ownReplies_crossed :
    (run twoClients 0 crossed twoStart).map (fun s => s.answers.map fun a => (a.1, a.2.2))
        = some [(1, lit "v"), (0, lit "ERROR : NO SUCH KEY (a)")] ∧
      ¬ ∀ (client : ℕ → Session × Str) (index : ℕ) (requester owner : Server) (session : Session)
        (es : List (Step ℕ)) (s : SharedLink ℕ),
        run client index es (start requester owner session) = some s → OwnReplies s := by
  obtain ⟨s, hs, hanswers⟩ : ∃ s, run twoClients 0 crossed twoStart = some s ∧
      s.answers = [(1, ⟨some 0, lit "v", lit "v"⟩, lit "v"),
        (0, ⟨some 1, lit "ERROR : NO SUCH KEY (a)", lit "ERROR : NO SUCH KEY (a)"⟩,
          lit "ERROR : NO SUCH KEY (a)")] := ⟨_, rfl, rfl⟩
  refine ⟨by rw [hs, Option.map_some, hanswers]; rfl, fun h => ?_⟩
  have hown := (h twoClients 0 _ _ _ crossed s hs) 1 _ _ (by rw [hanswers]; exact List.mem_cons_self ..)
  exact absurd hown.1 (by decide)

/-! ### The messages carry the commands of their threads -/

/-- A command that belongs to a thread is the one that its client sent, with the suffix. -/
def Addressed (client : ι → Session × Str) (s : SharedLink ι) : Prop :=
  ∀ i com, (some i, com) ∈ s.requests ∨ (some i, com) ∈ s.inHand →
    com = forwarded (client i).1 (commandPart (client i).2)

omit [DecidableEq ι] in
theorem eq_of_mem_commandPieces {i j : ι} {com piece : Str}
    (h : (some j, piece) ∈ commandPieces i com) : j = i ∧ piece = com := by
  obtain ⟨p, -, hp⟩ := List.mem_map.mp h
  obtain ⟨horigin, rfl⟩ := Prod.mk.inj hp
  split_ifs at horigin with heq
  exact ⟨(Option.some.inj horigin).symm, heq⟩

omit [DecidableEq ι] in
theorem eq_of_readCommand {r : Option ι × Str} {memory com : Str} {i : ι}
    (h : (some i, com) = readCommand memory r) : r = (some i, com) := by
  obtain ⟨horigin, htext⟩ := Prod.mk.inj h
  split_ifs at horigin with heq
  exact Prod.ext horigin.symm (htext.trans heq).symm

theorem Addressed.step {s s' : SharedLink ι} {e : Step ι} (h : Addressed client s)
    (hs : step client index s e = some s') : Addressed client s' := by
  cases e with
  | forward i t connected =>
    rw [SharedLink.step] at hs
    split_ifs at hs
    obtain ⟨x, hx, hs⟩ := Option.bind_eq_some_iff.mp hs
    split at hs
    next n com hsend =>
      split_ifs at hs
      obtain rfl := Option.some.inj hs
      -- only what is put on the connection here is new, and it is sent by the thread itself
      rintro j com' (hmem | hmem)
      · rcases List.mem_append.mp hmem with hmem | hmem
        · exact h j com' (Or.inl hmem)
        · obtain ⟨rfl, rfl⟩ := eq_of_mem_commandPieces hmem
          exact eq_forwarded_of_peer hx hsend
      · exact h j com' (Or.inr hmem)
    next => exact absurd hs (by simp)
  | accept memory =>
    rw [SharedLink.step] at hs
    split at hs
    next => exact absurd hs (by simp)
    next r rs hreq =>
      obtain rfl := Option.some.inj hs
      rintro j com' (hmem | hmem)
      · exact h j com' (Or.inl (hreq ▸ List.mem_cons_of_mem _ hmem))
      · rcases List.mem_append.mp hmem with hmem | hmem
        · exact h j com' (Or.inr hmem)
        · -- the command is taken off the connection into the hand
          have hr := eq_of_readCommand (List.mem_singleton.mp hmem)
          exact h j com' (Or.inl (by rw [hreq, hr]; exact List.mem_cons_self ..))
  | reply n t connected =>
    obtain ⟨r, -, hs⟩ := Option.bind_eq_some_iff.mp hs
    obtain ⟨x, -, hs⟩ := Option.bind_eq_some_iff.mp hs
    split at hs
    next =>
      obtain rfl := Option.some.inj hs
      rintro j com' (hmem | hmem)
      · exact h j com' (Or.inl hmem)
      · exact h j com' (Or.inr (List.mem_of_mem_eraseIdx hmem))
    next => exact absurd hs (by simp)
  | other ss com t connected =>
    obtain ⟨x, -, rfl⟩ := Option.map_eq_some_iff.mp hs
    exact h
  | receive i memory =>
    rw [SharedLink.step] at hs
    split_ifs at hs
    split at hs
    next => exact absurd hs (by simp)
    next =>
      obtain rfl := Option.some.inj hs
      exact h

/-- **The owner replies to what the clients asked.** -/
theorem Addressed.run {s s' : SharedLink ι} {es : List (Step ι)} (h : Addressed client s)
    (hs : run client index es s = some s') : Addressed client s' := by
  induction es generalizing s with
  | nil =>
    obtain rfl := Option.some.inj hs
    exact h
  | cons e es ih =>
    obtain ⟨u, hu, hs⟩ := Option.bind_eq_some_iff.mp hs
    exact ih (h.step hu) hs

end MuseKv.SharedLink
