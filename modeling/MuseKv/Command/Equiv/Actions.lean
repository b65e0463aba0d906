import MuseKv.Command.Handlers

/-!
# What a handler may do

`Allowed` lists the actions a handler may answer with, each with the level that was checked for it,
and `Sound` says that a result carries an allowed action.  The opening tests pass `Sound` on, so the
proof for a handler follows its nesting; there is one lemma for each handler.
-/

namespace MuseKv.Command

open Kvstore

/-- The actions a call may take on the entry it finds. -/
inductive Allowed (c : Call) : Option Kv → KeyAction → Prop
  /-- The entry stays. -/
  | keep {node : Option Kv} : Allowed c node .keep
  /-- An expired entry is removed. -/
  | expired {n : Kv} (h : n.isExpired c.currTime = true) : Allowed c (some n) .del
  /-- An entry is removed. -/
  | del {n : Kv} (h : n.authw ≤ c.auth) : Allowed c (some n) .del
  /-- An entry is created, or replaced. -/
  | set {node : Option Kv} {v : Value} {r w : UInt8} (h : ∀ n, node = some n → n.authw ≤ c.auth)
      (hv : v.isUnset = false) (hrw : r ≤ w) (hw : w ≤ c.auth) : Allowed c node (.set v r w)
  /-- The entry is written back as it was. -/
  | same {n : Kv} : Allowed c (some n) (.write n)
  /-- The content changes, within its type. -/
  | content {n : Kv} {v : Value} (h : n.authw ≤ c.auth) (hset : n.v.isUnset = false)
      (hv : v.isUnset = false) (ht : v.dataDtype = n.v.dataDtype) :
      Allowed c (some n) (.write (n.setV v))
  /-- The lifetime changes. -/
  | ttl {n : Kv} {timeEx : Int} (h : n.authw ≤ c.auth) :
      Allowed c (some n) (.write (n.setTtl timeEx c.currTime))
  /-- The read level changes. -/
  | authr {n : Kv} {x : UInt8} (h : n.authw ≤ c.auth) (hx : x ≤ c.auth) :
      Allowed c (some n) (.write (n.setAuthr x))
  /-- The write level changes. -/
  | authw {n : Kv} {x : UInt8} (h : n.authw ≤ c.auth) (hx : x ≤ c.auth) :
      Allowed c (some n) (.write (n.setAuthw x))

/-- The levels of a new entry are ordered and within the authority. -/
theorem Allowed.set_levels {c : Call} {node : Option Kv} {v : Value} {r w : UInt8}
    (h : Allowed c node (.set v r w)) : r ≤ w ∧ w ≤ c.auth := by
  cases h with
  | set _ _ hrw hw => exact ⟨hrw, hw⟩

/-- A result whose action is allowed. -/
def Sound (c : Call) (node : Option Kv) (r : Result) : Prop :=
  ∀ msg a, r = some (msg, a) → Allowed c node a

variable {c : Call} {node : Option Kv}

/-! ### The opening tests -/

theorem Sound.reply (msg : Str) : Sound c node (reply msg) := by
  intro msg' a h
  obtain ⟨-, rfl⟩ := Prod.mk.inj (Option.some.inj h)
  exact .keep

theorem Sound.fault : Sound c node none := fun _ _ h => absurd h (by simp)

theorem Sound.act {msg : Str} {a : KeyAction} (h : Allowed c node a) :
    Sound c node (some (msg, a)) := by
  intro msg' a' ha
  obtain ⟨-, rfl⟩ := Prod.mk.inj (Option.some.inj ha)
  exact h

theorem Sound.map {α : Type} {o : Option α} {f : α → Str × KeyAction}
    (h : ∀ x, o = some x → Allowed c node (f x).2) : Sound c node (o.map f) := by
  intro msg a ha
  obtain ⟨x, hx, hfx⟩ := Option.map_eq_some_iff.mp ha
  have := h x hx
  rwa [hfx] at this

theorem Sound.permitted {level : UInt8} {body : Result} (h : level ≤ c.auth → Sound c node body) :
    Sound c node (permitted c level body) := by
  rw [Command.permitted]
  split_ifs with hlt
  · exact .reply _
  · exact h (UInt8.not_lt.mp hlt)

theorem Sound.live {body : Kv → Result} (h : ∀ n, node = some n → Sound c (some n) (body n)) :
    Sound c node (live c node body) := by
  cases node with
  | none => exact .reply _
  | some n =>
    rw [Command.live]
    split_ifs with hexp
    · exact .act (.expired hexp)
    · exact h n rfl

theorem Sound.present {body : Kv → Result} (h : ∀ n, node = some n → Sound c (some n) (body n)) :
    Sound c node (present c node body) := by
  cases node with
  | none => exact .reply _
  | some n => exact h n rfl

theorem Sound.overwritable {body : Result}
    (h : (∀ n, node = some n → n.authw ≤ c.auth) → Sound c node body) :
    Sound c node (overwritable c node body) := by
  cases node with
  | none => exact h (by simp)
  | some n => exact .permitted fun hn => h fun n' hn' => Option.some.inj hn' ▸ hn

theorem Sound.onList {level : Kv → UInt8} {body : Kv → List Str → Result}
    (h : ∀ n l, n.v = .list l → level n ≤ c.auth → Sound c (some n) (body n l)) :
    Sound c node (onList c level node body) := by
  refine .live fun n _ => ?_
  split
  next l hl => exact .permitted (h n l hl)
  next => exact .reply _

theorem Sound.onSet {level : Kv → UInt8} {body : Kv → Hashset → Result}
    (h : ∀ n s, n.v = .set s → level n ≤ c.auth → Sound c (some n) (body n s)) :
    Sound c node (onSet c level node body) := by
  refine .live fun n _ => ?_
  split
  next s hs => exact .permitted (h n s hs)
  next => exact .reply _

theorem Sound.onHashmap {level : Kv → UInt8} {body : Kv → Hashmap → Result}
    (h : ∀ n m, n.v = .hashmap m → level n ≤ c.auth → Sound c (some n) (body n m)) :
    Sound c node (onHashmap c level node body) := by
  refine .live fun n _ => ?_
  split
  next m hm => exact .permitted (h n m hm)
  next => exact .reply _

theorem Sound.withInt {str bad : Str} {body : Int → Result} (h : ∀ x, Sound c node (body x)) :
    Sound c node (withInt str bad body) := by
  rw [Command.withInt]
  split
  next => exact .fault
  next => exact .reply _
  next x _ => exact h x

theorem Sound.withinAuth {x : Int} {body : Result}
    (h : x ≤ c.auth.toNat → Sound c node body) : Sound c node (withinAuth c x body) := by
  rw [Command.withinAuth]
  split_ifs with hlt
  · exact .reply _
  · exact h (not_lt.mp hlt)

theorem Sound.ite {p : Prop} [Decidable p] {r s : Result} (hr : p → Sound c node r)
    (hs : ¬ p → Sound c node s) : Sound c node (if p then r else s) := by
  split_ifs with h
  · exact hr h
  · exact hs h

/-! ### Levels taken from arguments -/

theorem toU8_le_of_le {x : Int} {a : UInt8} (h₀ : 0 ≤ x) (h : x ≤ a.toNat) : toU8 x ≤ a := by
  have ha := a.toNat_lt
  have := toNat_toU8 h₀ (by omega)
  rw [UInt8.le_iff_toNat_le]
  omega

theorem toU8_le_toU8 {x y : Int} (h₀ : 0 ≤ x) (h : x ≤ y) (hy : y < 256) : toU8 x ≤ toU8 y := by
  have hx := toNat_toU8 h₀ (by omega)
  have hy' := toNat_toU8 (by omega : 0 ≤ y) hy
  rw [UInt8.le_iff_toNat_le]
  omega

theorem zero_le_u8 (a : UInt8) : 0 ≤ a := by
  rw [UInt8.le_iff_toNat_le]
  exact Nat.zero_le _

/-! ### The handlers -/

theorem get_sound : Sound c node (get c node) :=
  .live fun _ _ => .permitted fun _ => .map fun _ _ => .keep

theorem make_sound : Sound c node (make c node) := by
  have ha := c.auth.toNat_lt
  refine .overwritable fun hnode => ?_
  split
  next data => exact .act (.set hnode rfl (zero_le_u8 _) (UInt8.le_refl _))
  next data arg3 =>
    refine .withInt fun temp => .ite (fun _ => .reply _) fun h₀ => .withinAuth fun hle => .act ?_
    exact .set hnode rfl (toU8_le_of_le (not_lt.mp h₀) hle) (UInt8.le_refl _)
  next data arg3 arg4 =>
    split
    next b1 temp1 b2 temp2 _ _ =>
      refine .ite (fun _ => .reply _) fun h₁ => .ite (fun _ => .reply _) fun h₂ =>
        .withinAuth fun hle₁ => .withinAuth fun hle₂ => .ite (fun _ => .reply _) fun hgt => .act ?_
      have h₁ : 0 ≤ temp1 := by
        by_contra hneg
        exact h₁ (by simp [not_le.mp hneg])
      exact .set hnode rfl (toU8_le_toU8 h₁ (not_lt.mp hgt) (by omega))
        (toU8_le_of_le (h₁.trans (not_lt.mp hgt)) hle₂)
    next => exact .fault
  next => exact .fault

theorem del_sound : Sound c node (del c node) :=
  .present fun _ _ => .permitted fun hw => .act (.del hw)

theorem setLevel_sound {mutator : Kv → UInt8 → Kv}
    (h : ∀ n x, n.authw ≤ c.auth → x ≤ c.auth → Allowed c (some n) (.write (mutator n x))) :
    Sound c node (setLevel mutator c node) :=
  .present fun n _ => .withInt fun _ => .ite (fun _ => .reply _) fun h₀ => .withinAuth fun hle =>
    .permitted fun hw => .act (h n _ hw (toU8_le_of_le (not_lt.mp h₀) hle))

theorem authr_sound : Sound c node (authr c node) := setLevel_sound fun _ _ => .authr

theorem authw_sound : Sound c node (authw c node) := setLevel_sound fun _ _ => .authw

theorem expire_sound : Sound c node (expire c node) :=
  .withInt fun _ => .live fun _ _ => .permitted fun hw => .act (.ttl hw)

theorem getTtl_sound : Sound c node (getTtl c node) := by
  intro msg a h
  cases node with
  | none =>
    obtain ⟨-, rfl⟩ := Prod.mk.inj (Option.some.inj h)
    exact .keep
  | some n =>
    rw [getTtl, live] at h
    split_ifs at h with hexp
    · obtain ⟨-, rfl⟩ := Prod.mk.inj (Option.some.inj h)
      exact .expired hexp
    · -- the entry is not expired, so `get_ttl` does not mark it
      rw [Kv.getTtl_of_not_expired (by simpa using hexp)] at h
      exact (Sound.permitted fun _ => .act .same) msg a h

theorem lmake_sound : Sound c node (lmake c node) := by
  refine .overwritable fun hnode => .map fun v hv => ?_
  obtain ⟨l, -, rfl⟩ := Option.map_eq_some_iff.mp hv
  exact .set hnode rfl (zero_le_u8 _) (UInt8.le_refl _)

/-- A new content of the type `List`. -/
theorem allowed_list {n : Kv} {l : List Str} (hl : n.v = .list l) (hw : n.authw ≤ c.auth)
    (l' : List Str) : Allowed c (some n) (.write (n.setV (.list l'))) :=
  .content hw (by rw [hl]; rfl) rfl (by rw [hl]; rfl)

theorem lpush_sound : Sound c node (lpush c node) :=
  .onList fun _ _ hl hw => .act (allowed_list hl hw _)

theorem rpush_sound : Sound c node (rpush c node) :=
  .onList fun _ _ hl hw => .act (allowed_list hl hw _)

theorem popList_sound (pop : List Str → Str × List Str) : Sound c node (popList pop c node) :=
  .onList fun _ _ hl hw => .ite (fun _ => .reply _) fun _ => .act (allowed_list hl hw _)

theorem lget_sound : Sound c node (lget c node) :=
  .onList fun _ _ _ _ => .ite (fun _ => .reply _) fun _ => .withInt fun _ => .map fun _ _ => .keep

theorem lset_sound : Sound c node (lset c node) :=
  .onList fun _ _ hl hw => .ite (fun _ => .reply _) fun _ => .withInt fun _ =>
    .map fun l _ => allowed_list hl hw l

theorem lerase_sound : Sound c node (lerase c node) :=
  .onList fun _ _ hl hw => .ite (fun _ => .reply _) fun _ => .withInt fun _ =>
    .act (allowed_list hl hw _)

theorem smake_sound : Sound c node (smake c node) :=
  .overwritable fun hnode => .map fun _ _ => .set hnode rfl (zero_le_u8 _) (UInt8.le_refl _)

/-- A new content of the type `Set`. -/
theorem allowed_set {n : Kv} {s : Hashset} (hs : n.v = .set s) (hw : n.authw ≤ c.auth)
    (s' : Hashset) : Allowed c (some n) (.write (n.setV (.set s'))) :=
  .content hw (by rw [hs]; rfl) rfl (by rw [hs]; rfl)

theorem spush_sound : Sound c node (spush c node) :=
  .onSet fun _ _ hs hw => .act (allowed_set hs hw _)

theorem spop_sound : Sound c node (spop c node) :=
  .onSet fun _ _ hs hw => .ite (fun _ => .reply _) fun _ => .act (allowed_set hs hw _)

theorem serase_sound : Sound c node (serase c node) :=
  .onSet fun _ _ hs hw => .ite (fun _ => .reply _) fun _ => .act (allowed_set hs hw _)

theorem sort_sound : Sound c node (sort c node) := by
  refine .live fun n _ => ?_
  split
  next => exact .permitted fun _ => .map fun _ _ => .keep
  next => exact .permitted fun _ => .map fun _ _ => .keep
  next => exact .reply _

theorem hmake_sound : Sound c node (hmake c node) := by
  refine .ite (fun _ => .reply _) fun _ => .overwritable fun hnode => .map fun v hv => ?_
  obtain ⟨l, -, rfl⟩ := Option.map_eq_some_iff.mp hv
  exact .set hnode rfl (zero_le_u8 _) (UInt8.le_refl _)

/-- A new content of the type `Hashmap`. -/
theorem allowed_hashmap {n : Kv} {m : Hashmap} (hm : n.v = .hashmap m) (hw : n.authw ≤ c.auth)
    (m' : Hashmap) : Allowed c (some n) (.write (n.setV (.hashmap m'))) :=
  .content hw (by rw [hm]; rfl) rfl (by rw [hm]; rfl)

theorem hpush_sound : Sound c node (hpush c node) :=
  .onHashmap fun _ _ hm hw => .act (allowed_hashmap hm hw _)

theorem hget_sound : Sound c node (hget c node) :=
  .onHashmap fun _ _ _ _ => .ite (fun _ => .reply _) fun _ =>
    .ite (fun _ => .reply _) fun _ => .reply _

theorem listing_sound (text : Hashmap → Str) : Sound c node (listing text c node) :=
  .onHashmap fun _ _ _ _ => .ite (fun _ => .reply _) fun _ => .reply _

theorem herase_sound : Sound c node (herase c node) := by
  refine .onHashmap fun n m hm hw => .ite (fun _ => .reply _) fun _ => ?_
  split
  next => exact .reply _
  next => exact .map fun m' _ => allowed_hashmap hm hw m'

end MuseKv.Command
