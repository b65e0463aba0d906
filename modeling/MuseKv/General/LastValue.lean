import Mathlib.Data.List.Basic

/-!
# The value that a key was given last

`lastValue log k` is the value of the last entry of `log` for the key `k`.  A store is `Backed` by a log
if it has no other values than these.  It stays so when entries are put behind the log, as long as every
value that is there afterwards is the last one of the new entries, or was there before and has none
(`Backed.append`).
-/

namespace MuseKv.General

variable {Key Val : Type*} [DecidableEq Key]

/-- The value that a key was given last. -/
def lastValue (log : List (Key × Val)) (k : Key) : Option Val :=
  (log.reverse.find? fun e => e.1 = k).map Prod.snd

@[simp]
theorem lastValue_nil (k : Key) : lastValue ([] : List (Key × Val)) k = none := rfl

/-- Later entries count. -/
theorem lastValue_append (log log' : List (Key × Val)) (k : Key) :
    lastValue (log ++ log') k = (lastValue log' k).or (lastValue log k) := by
  rw [lastValue, List.reverse_append, List.find?_append, lastValue, lastValue]
  cases log'.reverse.find? fun e => e.1 = k with
  | none => rfl
  | some e => rfl

theorem lastValue_cons (e : Key × Val) (log : List (Key × Val)) (k : Key) :
    lastValue (e :: log) k = (lastValue log k).or (if e.1 = k then some e.2 else none) := by
  rw [← List.singleton_append, lastValue_append]
  congr 1
  rw [lastValue, List.reverse_singleton]
  by_cases h : e.1 = k
  · rw [if_pos h, List.find?_cons_of_pos (by simpa using h)]
    rfl
  · rw [if_neg h, List.find?_cons_of_neg (by simpa using h)]
    rfl

/-- Entries under a common prefix of their keys. -/
theorem lastValue_map_prefix {Pre : Type*} [DecidableEq Pre] (p p' : Pre) (log : List (Key × Val))
    (k : Key) : lastValue (log.map fun e => ((p, e.1), e.2)) (p', k) =
      if p = p' then lastValue log k else none := by
  induction log with
  | nil => simp
  | cons e log ih =>
    rw [List.map_cons, lastValue_cons, lastValue_cons, ih]
    by_cases hp : p = p'
    · simp [hp]
    · simp [hp]

/-- The store has no other values than those that were given last. -/
def Backed (log : List (Key × Val)) (σ : Key → Option Val) : Prop :=
  ∀ k v, σ k = some v → lastValue log k = some v

/-- **A step keeps the store backed**, if what is there afterwards is new, or was there and is not given
anew. -/
theorem Backed.append {log log' : List (Key × Val)} {σ σ' : Key → Option Val} (h : Backed log σ)
    (hstep : ∀ k v, σ' k = some v →
      lastValue log' k = some v ∨ (lastValue log' k = none ∧ σ k = some v)) :
    Backed (log ++ log') σ' := by
  intro k v hv
  rw [lastValue_append]
  rcases hstep k v hv with hnew | ⟨hnone, hold⟩
  · rw [hnew, Option.some_or]
  · rw [hnone, Option.none_or, h k v hold]

end MuseKv.General
