import LedgerText.TextBuffer
import Mathlib.Algebra.Ring.Nat
import Mathlib.Data.Nat.Log
import Mathlib.Order.Bounds.Basic
import Mathlib.Tactic.SplitIfs

/-!
# The room of a text buffer

A buffer is used in any order: appended to, emptied, read out. How much room it has is told by the
room that it started with and by the greatest length that it has had since, its `peak`. Where the
room at the start was enough there is no other, and else there is the least number on a ladder of
doublings that holds the peak (`capacity_of_peak`). The sizes and the order of the appends do not
matter, because making room for one length and then for another makes as much as making room for
the greater of the two (`room_room`). A growth climbs the ladder by a rung at least, so there are no
more growths than rungs, that is, than the logarithm of what the room was multiplied by
(`mostGrowths_room`). A release starts all this anew, without room.
-/

namespace LedgerText.TextBuffer

variable {b : TextBuffer} {initial growths top capacity needed p q : Nat}

/-! ## Ladders of doublings -/

/-- Enough room is not doubled. -/
theorem doubled_of_le (h : needed ≤ capacity) : doubled needed capacity = capacity := by
  rw [doubled, if_pos (.inr h)]

/-- Where room is doubled, it may as well be doubled beforehand. -/
theorem doubled_two_mul (hpos : 0 < capacity) (h : capacity < needed) :
    doubled needed capacity = doubled needed (2 * capacity) := by
  rw [doubled, if_neg (by omega)]

/-- Doubling stops at the least number of the ladder that is enough. -/
theorem isLeast_doubled (hpos : 0 < capacity) :
    IsLeast {n | needed ≤ n ∧ ∃ k, n = capacity * 2 ^ k} (doubled needed capacity) := by
  fun_induction doubled needed capacity with
  | case1 capacity hstop =>
    have hle : needed ≤ capacity := hstop.resolve_left (Nat.ne_of_gt hpos)
    refine ⟨⟨hle, 0, (Nat.mul_one capacity).symm⟩, ?_⟩
    rintro n ⟨-, k, rfl⟩
    exact Nat.le_mul_of_pos_right capacity (Nat.two_pow_pos k)
  | case2 capacity hgoes ih =>
    have hladder (k : Nat) : 2 * capacity * 2 ^ k = capacity * 2 ^ (k + 1) := by
      rw [Nat.pow_succ', Nat.mul_comm 2 capacity, Nat.mul_assoc]
    obtain ⟨⟨hle, k, hk⟩, hleast⟩ := ih (by omega)
    refine ⟨⟨hle, k + 1, hk.trans (hladder k)⟩, ?_⟩
    rintro n ⟨hn, k, rfl⟩
    cases k with
    | zero =>
      -- The foot of the ladder is not enough, or nothing would have been doubled.
      rw [Nat.pow_zero, Nat.mul_one] at hn
      exact absurd (.inr hn) hgoes
    | succ k => exact hleast ⟨hn, k, (hladder k).symm⟩

/-- Doubled room holds what is needed. -/
theorem le_doubled (hpos : 0 < capacity) : needed ≤ doubled needed capacity :=
  (isLeast_doubled hpos).1.1

/-- Room does not shrink when it is doubled. -/
theorem capacity_le_doubled (hpos : 0 < capacity) : capacity ≤ doubled needed capacity := by
  have hladder : ∃ k, doubled needed capacity = capacity * 2 ^ k := (isLeast_doubled hpos).1.2
  obtain ⟨k, hk⟩ := hladder
  rw [hk]
  exact Nat.le_mul_of_pos_right capacity (Nat.two_pow_pos k)

/-- Doubling for less on the way to more makes no difference. -/
theorem doubled_doubled (h : p ≤ q) (capacity : Nat) :
    doubled q (doubled p capacity) = doubled q capacity := by
  fun_induction doubled p capacity with
  | case1 capacity hstop => rfl
  | case2 capacity hgoes ih =>
    have hq : doubled q capacity = doubled q (2 * capacity) :=
      doubled_two_mul (by omega) (by omega)
    rw [ih, hq]

/-! ## Making room -/

/-- The room after some bytes were needed where there was room for `capacity` bytes. -/
def room (capacity needed : Nat) : Nat :=
  if needed ≤ capacity then capacity else doubled needed (max capacity leastGrowth)

/-- Room that is enough stays as it is. -/
theorem room_of_le (h : needed ≤ capacity) : room capacity needed = capacity := if_pos h

/-- Room that is not enough is doubled, from the least growth on. -/
theorem room_of_lt (h : capacity < needed) :
    room capacity needed = doubled needed (max capacity leastGrowth) :=
  if_neg (Nat.not_le.2 h)

/-- A growth starts from some room. -/
theorem max_leastGrowth_pos (capacity : Nat) : 0 < max capacity leastGrowth :=
  Nat.lt_of_lt_of_le (by decide) (Nat.le_max_right capacity leastGrowth)

/-- There is room for what was needed. -/
theorem le_room (capacity needed : Nat) : needed ≤ room capacity needed := by
  by_cases h : needed ≤ capacity
  · rwa [room_of_le h]
  · rw [room_of_lt (Nat.not_le.1 h)]
    exact le_doubled (max_leastGrowth_pos capacity)

/-- Every growth makes room for the least growth. -/
theorem max_leastGrowth_le_room (h : capacity < needed) :
    max capacity leastGrowth ≤ room capacity needed := by
  rw [room_of_lt h]
  exact capacity_le_doubled (max_leastGrowth_pos capacity)

/-- A growth doubles the room at least, from the least growth on. -/
theorem two_mul_le_room (hleast : leastGrowth ≤ capacity) (h : capacity < needed) :
    2 * capacity ≤ room capacity needed := by
  have hpos : 0 < capacity := Nat.lt_of_lt_of_le (by decide) hleast
  rw [room_of_lt h, Nat.max_eq_left hleast, doubled_two_mul hpos h]
  exact capacity_le_doubled (by omega)

/-- To make room for two lengths one after the other is to make room for the greater. -/
theorem room_room (capacity p q : Nat) : room (room capacity p) q = room capacity (max p q) := by
  by_cases hp : p ≤ capacity
  · rw [room_of_le hp]
    by_cases hq : q ≤ capacity
    · rw [room_of_le hq, room_of_le (Nat.max_le.2 ⟨hp, hq⟩)]
    · rw [Nat.max_eq_right (by omega)]
  · -- The first growth leaves room on the ladder of the second.
    have hgrows : capacity < p := Nat.not_le.1 hp
    have hfirst := room_of_lt hgrows
    have hle := le_room capacity p
    have hleast := max_leastGrowth_le_room hgrows
    have hboth : capacity < max p q := by omega
    rw [room_of_lt hboth, ← doubled_doubled (Nat.le_max_left p q) (max capacity leastGrowth),
      ← hfirst]
    by_cases hq : q ≤ room capacity p
    · rw [room_of_le hq, doubled_of_le (Nat.max_le.2 ⟨hle, hq⟩)]
    · have hmax : max (room capacity p) leastGrowth = room capacity p := by omega
      rw [room_of_lt (Nat.not_le.1 hq), hmax, Nat.max_eq_right (by omega)]

/-! ## Growths -/

/-- How often room for `initial` bytes can have grown where there is room for `capacity` bytes now:
as often as it can have been doubled. Room for less than 16 bytes may have grown to 16 first. -/
def mostGrowths (initial capacity : Nat) : Nat :=
  if 16 ≤ initial then Nat.log 2 (capacity / initial)
  else if initial < capacity then 1 + Nat.log 2 (capacity / 16)
  else 0

/-- What is doubled has a greater logarithm. -/
theorem log_div_lt {d m n : Nat} (hd : 0 < d) (hm : d ≤ m) (h : 2 * m ≤ n) :
    Nat.log 2 (m / d) < Nat.log 2 (n / d) := by
  have hne : m / d ≠ 0 := Nat.ne_of_gt (Nat.div_pos hm hd)
  have hle : m / d * 2 ≤ n / d := by
    rw [Nat.le_div_iff_mul_le hd]
    calc m / d * 2 * d
      _ = 2 * (m / d * d) := by rw [Nat.mul_comm (m / d) 2, Nat.mul_assoc]
      _ ≤ 2 * m := Nat.mul_le_mul_left 2 (Nat.div_mul_le_self m d)
      _ ≤ n := h
  calc Nat.log 2 (m / d)
    _ < Nat.log 2 (m / d) + 1 := Nat.lt_succ_self _
    _ = Nat.log 2 (m / d * 2) := (Nat.log_mul_base (by decide) hne).symm
    _ ≤ Nat.log 2 (n / d) := Nat.log_mono_right hle

/-- With every growth there can have been one more. -/
theorem mostGrowths_room (hcapacity : capacity = initial ∨ initial < capacity ∧ 16 ≤ capacity)
    (h : capacity < needed) :
    mostGrowths initial capacity < mostGrowths initial (room capacity needed) := by
  have hneeded := le_room capacity needed
  unfold mostGrowths
  split_ifs with hinitial hgrown
  · exact log_div_lt (by omega) (by omega) (two_mul_le_room (by rw [leastGrowth]; omega) h)
  · have hleast : 16 ≤ capacity := by omega
    exact Nat.add_lt_add_left (log_div_lt (by decide) hleast (two_mul_le_room hleast h)) 1
  all_goals omega

/-! ## Uses of a buffer -/

/-- What is done with a buffer: something is appended, or its bytes are thrown away, read out, or
given up together with their room. -/
inductive Use where
  | push (byte : UInt8)
  | pushChar (c : Char)
  | append (bytes : Bytes)
  | clear
  | finish
  | release
deriving DecidableEq

/-- The buffer after a use. -/
def perform (b : TextBuffer) : Use → TextBuffer
  | .push byte => b.push byte
  | .pushChar c => b.pushChar c
  | .append bytes => b.append bytes
  | .clear => b.clear
  | .finish => b.finish.2
  | .release => b.release

/-- The buffer after some uses. -/
def after (b : TextBuffer) (uses : List Use) : TextBuffer := uses.foldl perform b

/-- The greatest length of a buffer before, between and after some uses. -/
def peak (b : TextBuffer) : List Use → Nat
  | [] => b.length
  | use :: uses => max b.length ((b.perform use).peak uses)

/-- The peak is no less than the length at the start. -/
theorem length_le_peak (b : TextBuffer) (uses : List Use) : b.length ≤ b.peak uses := by
  cases uses with
  | nil => exact Nat.le_refl b.length
  | cons use uses => exact Nat.le_max_left ..

theorem length_append (b : TextBuffer) (bytes : Bytes) :
    (b.append bytes).length = b.length + bytes.length :=
  List.length_append

/-- An append makes room for the length that it leads to. -/
theorem capacity_append (b : TextBuffer) (bytes : Bytes) :
    (b.append bytes).capacity = room b.capacity (b.append bytes).length := by
  rw [length_append]
  unfold append reserve room
  split_ifs <;> rfl

/-- An append grows once if the length that it leads to does not fit. -/
theorem growths_append (b : TextBuffer) (bytes : Bytes) :
    (b.append bytes).growths =
      if (b.append bytes).length ≤ b.capacity then b.growths else b.growths + 1 := by
  rw [length_append]
  unfold append reserve
  split_ifs <;> rfl

/-! ## What is kept -/

/-- What is known of a buffer that started with room for `initial` bytes and had grown `growths`
times then, if its length has been `top` since, and no more. -/
structure Grown (initial growths top : Nat) (b : TextBuffer) : Prop where
  length_le : b.length ≤ top
  capacity_eq : b.capacity = room initial top
  growths_le : growths ≤ b.growths
  growths_le_add : b.growths ≤ growths + mostGrowths initial b.capacity
  growths_eq_iff : b.growths = growths ↔ b.capacity = initial

/-- A buffer starts empty. -/
theorem grown_of_nil (h : b.bytes = []) : Grown b.capacity b.growths 0 b where
  length_le := by rw [length, h, List.length_nil]
  capacity_eq := (room_of_le (Nat.zero_le _)).symm
  growths_le := Nat.le_refl _
  growths_le_add := Nat.le_add_right ..
  growths_eq_iff := iff_of_true rfl rfl

namespace Grown

/-- The room at the start is kept until it grows, and then it is that of the least growth. -/
theorem capacity_cases (h : Grown initial growths top b) :
    b.capacity = initial ∨ initial < b.capacity ∧ leastGrowth ≤ b.capacity := by
  rw [h.capacity_eq]
  by_cases htop : top ≤ initial
  · exact .inl (room_of_le htop)
  · have hle := le_room initial top
    have hleast := max_leastGrowth_le_room (Nat.not_le.1 htop)
    exact .inr ⟨by omega, by omega⟩

/-- Appends grow a buffer to its greatest length. -/
theorem append (h : Grown initial growths top b) (bytes : Bytes) :
    Grown initial growths (max top (b.append bytes).length) (b.append bytes) := by
  have hcapacity := capacity_append b bytes
  have hgrowths := growths_append b bytes
  have hroom : (b.append bytes).capacity = room initial (max top (b.append bytes).length) := by
    rw [hcapacity, h.capacity_eq, room_room]
  have hle := h.growths_le
  have hbound := h.growths_le_add
  by_cases hfits : (b.append bytes).length ≤ b.capacity
  · rw [if_pos hfits] at hgrowths
    rw [room_of_le hfits] at hcapacity
    exact {
      length_le := Nat.le_max_right ..
      capacity_eq := hroom
      growths_le := by omega
      growths_le_add := by rw [hcapacity, hgrowths]; exact hbound
      growths_eq_iff := by rw [hcapacity, hgrowths]; exact h.growths_eq_iff }
  · rw [if_neg hfits] at hgrowths
    have hlt : b.capacity < (b.append bytes).length := Nat.not_le.1 hfits
    have hmost := mostGrowths_room h.capacity_cases hlt
    have hlength := le_room b.capacity (b.append bytes).length
    rw [← hcapacity] at hmost hlength
    have hinitial : initial ≤ b.capacity := by
      rcases h.capacity_cases with heq | ⟨hlt, -⟩ <;> omega
    exact {
      length_le := Nat.le_max_right ..
      capacity_eq := hroom
      growths_le := by omega
      growths_le_add := by omega
      growths_eq_iff := iff_of_false (by omega) (by omega) }

/-- A buffer that is emptied keeps its room. -/
theorem clear (h : Grown initial growths top b) :
    Grown initial growths (max top b.clear.length) b.clear := by
  have htop : max top b.clear.length = top := Nat.max_eq_left (Nat.zero_le top)
  rw [htop]
  exact { h with length_le := Nat.zero_le top }

/-- Every use but a release is kept account of. -/
theorem perform (h : Grown initial growths top b) {use : Use} (huse : use ≠ .release) :
    Grown initial growths (max top (b.perform use).length) (b.perform use) := by
  cases use with
  | push byte => exact h.append [byte]
  | pushChar c => exact h.append (Utf8.encode [c])
  | append bytes => exact h.append bytes
  | clear => exact h.clear
  | finish => exact h.clear
  | release => exact absurd rfl huse

/-- So are all uses up to a release. -/
theorem after (h : Grown initial growths top b) {uses : List Use} (huses : .release ∉ uses) :
    Grown initial growths (max top (b.peak uses)) (b.after uses) := by
  induction uses generalizing b top with
  | nil =>
    have htop : max top (b.peak []) = top := Nat.max_eq_left h.length_le
    rw [htop]
    exact h
  | cons use uses ih =>
    have huse : use ≠ .release := fun heq => huses (heq ▸ List.mem_cons_self)
    have hafter := ih (h.perform huse) fun hmem => huses (List.mem_cons_of_mem use hmem)
    have hlength := h.length_le
    have hpeak := (b.perform use).length_le_peak uses
    have htop : max (max top (b.perform use).length) ((b.perform use).peak uses) =
        max top (b.peak (use :: uses)) := by
      rw [peak]
      omega
    rwa [htop] at hafter

end Grown

/-! ## Room by the peak -/

/-- The room and the growths of a buffer, told by the room `initial` and the number of growths that
it started with and by its greatest length since. -/
structure FollowsPeak (initial growths peak : Nat) (b : TextBuffer) : Prop where
  /-- What is collected fits. -/
  length_le_capacity : b.length ≤ b.capacity
  /-- Room that was enough has stayed as it was. -/
  capacity_eq : peak ≤ initial → b.capacity = initial
  /-- Room that was not enough is the least that is enough, of the doublings of the room at the
  start or of 16. -/
  isLeast_capacity : initial < peak →
    IsLeast {n | peak ≤ n ∧ ∃ k, n = max initial 16 * 2 ^ k} b.capacity
  /-- Growths are never counted down. -/
  growths_le : growths ≤ b.growths
  /-- There has been a growth exactly if there is other room than at the start. -/
  growths_eq_iff : b.growths = growths ↔ b.capacity = initial
  /-- There have been no more growths than the room allows for. -/
  growths_le_add : b.growths ≤ growths + mostGrowths initial b.capacity

/-- A buffer whose uses are kept account of follows its peak. -/
theorem Grown.followsPeak (h : Grown initial growths top b) :
    FollowsPeak initial growths top b where
  length_le_capacity := by
    rw [h.capacity_eq]
    exact Nat.le_trans h.length_le (le_room initial top)
  capacity_eq htop := h.capacity_eq.trans (room_of_le htop)
  isLeast_capacity htop := by
    rw [h.capacity_eq, room_of_lt htop]
    exact isLeast_doubled (max_leastGrowth_pos initial)
  growths_le := h.growths_le
  growths_eq_iff := h.growths_eq_iff
  growths_le_add := h.growths_le_add

/-- The room of a buffer depends on its greatest length alone, whatever is done with it and in which
order. After a release the same holds of the buffer from there on, as of one without room. -/
theorem capacity_of_peak (initial : Nat) {uses : List Use} (huses : .release ∉ uses) :
    FollowsPeak initial 0 ((ofCapacity initial).peak uses) ((ofCapacity initial).after uses) ∧
      ∀ past,
        let released := ((ofCapacity initial).after past).release
        FollowsPeak 0 released.growths (released.peak uses) (released.after uses) := by
  have hfollows (b : TextBuffer) (hbytes : b.bytes = []) :
      FollowsPeak b.capacity b.growths (b.peak uses) (b.after uses) := by
    have hgrown := ((grown_of_nil hbytes).after huses).followsPeak
    rwa [Nat.zero_max] at hgrown
  refine ⟨hfollows (ofCapacity initial) rfl, ?_⟩
  intro past released
  exact hfollows released rfl

/-- Room for three bytes grows for twenty, not for the shorter texts after them, and again for
forty-one. -/
theorem capacity_of_peak_twice :
    let twenty : Bytes := List.replicate 20 0x61
    let uses : List Use := [.append twenty, .clear, .pushChar 'é', .finish, .push 0x61,
      .append (twenty ++ twenty)]
    let start := ofCapacity 3
    let released := (start.after (uses ++ [.release, .append twenty])).release
    .release ∉ uses ∧
      FollowsPeak 3 0 (start.peak uses) (start.after uses) ∧
      start.peak uses = 41 ∧ (start.after uses).capacity = 64 ∧ (start.after uses).growths = 2 ∧
      FollowsPeak 0 released.growths (released.peak uses) (released.after uses) ∧
      released.growths = 3 ∧ (released.after uses).growths = 5 := by
  intro twenty uses start released
  have huses : .release ∉ uses := by decide
  obtain ⟨hstart, hreleased⟩ := capacity_of_peak 3 huses
  exact ⟨huses, hstart, by decide +kernel, by decide +kernel, by decide +kernel,
    hreleased (uses ++ [.release, .append twenty]), by decide +kernel, by decide +kernel⟩

end LedgerText.TextBuffer
