/-
# `Xv6.Console.Input` — the input buffer of the console

`struct input` has one array and three `uint` counters: bytes between `r` and `w`
are committed and wait for a reader, bytes between `w` and `e` are the line being
edited.  `key` is one turn of the loop of `consoleintr`, `copyOut` the loop of
`consoleread` up to the point where it sleeps or ends.

`Line` says what the buffer is for: three lists, and the editing keys and reads as
operations on them.  `Input.Holds` relates the two, and each operation keeps it.
-/
import Xv6.Lib.Fifo
import Mathlib.Data.UInt

namespace Xv6.Console

open List

/-- Bytes the buffer can hold. -/
def INPUT_BUF : Nat := 128

instance : NeZero INPUT_BUF := ⟨by decide⟩

/-- `C(x)`: the control character of a letter. -/
def C (x : Char) : UInt8 := (x.toNat - '@'.toNat).toUInt8

def newline : UInt8 := 10

def carriageReturn : UInt8 := 13

def delete : UInt8 := 0x7f

/-- What a turn in `consoleread` comes to: it returns the bytes, or it waits with some still
to come and some copied. -/
inductive Progress where
  | done (got : List UInt8)
  | wait (left : Nat) (got : List UInt8)
deriving DecidableEq

/-! ## The buffer of `console.c` -/

structure Input where
  buf : Fin INPUT_BUF → UInt8
  r : UInt32
  w : UInt32
  e : UInt32

/-- The place of a counter in the array. -/
def cell (k : UInt32) : Fin INPUT_BUF := Fin.ofNat INPUT_BUF k.toNat

namespace Input

/-- A static variable starts as zero. -/
def init : Input := ⟨fun _ => 0, 0, 0, 0⟩

/-- `input.e--`. -/
def erase (i : Input) : Input := ⟨i.buf, i.r, i.w, i.e - 1⟩

/-- The loop of `^U`.  It ends when `e` has come down to `w`, so `e - w` turns are enough. -/
def killLoop : Nat → Input → Input
  | 0, i => i
  | n + 1, i =>
    if i.e ≠ i.w ∧ i.buf (cell (i.e - 1)) ≠ newline then killLoop n i.erase else i

def killLine (i : Input) : Input := killLoop (i.e - i.w).toNat i

def backspace (i : Input) : Input := if i.e ≠ i.w then i.erase else i

/-- `input.buf[input.e++ % INPUT_BUF] = c`. -/
def put (i : Input) (c : UInt8) : Input :=
  ⟨Function.update i.buf (cell i.e) c, i.r, i.w, i.e + 1⟩

/-- `input.w = input.e`. -/
def commit (i : Input) : Input := ⟨i.buf, i.r, i.e, i.e⟩

/-- `c = (c == '\r') ? '\n' : c`. -/
def fold (c : UInt8) : UInt8 := if c = carriageReturn then newline else c

/-- The default case of `consoleintr`; the flag says that it calls `wakeup(&input.r)`. -/
def insert (c : UInt8) (i : Input) : Input × Bool :=
  if c ≠ 0 ∧ i.e - i.r < UInt32.ofNat INPUT_BUF then
    if fold c = newline ∨ fold c = C 'D' ∨
        (i.put (fold c)).e = i.r + UInt32.ofNat INPUT_BUF then
      ((i.put (fold c)).commit, true)
    else (i.put (fold c), false)
  else (i, false)

/-- One character in `consoleintr`.  `^P` prints the process list and leaves the buffer. -/
def key (c : UInt8) (i : Input) : Input × Bool :=
  if c = C 'P' then (i, false)
  else if c = C 'U' then (i.killLine, false)
  else if c = C 'H' ∨ c = delete then (i.backspace, false)
  else i.insert c

/-- `input.buf[input.r % INPUT_BUF]`. -/
def next (i : Input) : UInt8 := i.buf (cell i.r)

/-- `input.r++`. -/
def advance (i : Input) : Input := ⟨i.buf, i.r + 1, i.w, i.e⟩

/-- `input.r--`. -/
def unread (i : Input) : Input := ⟨i.buf, i.r - 1, i.w, i.e⟩

/-- The loop of `consoleread` from a turn with `n` bytes to go, `got` being those copied to
`dst`: `n < target` says that there are some. -/
def copyOut : Nat → List UInt8 → Input → Progress × Input
  | 0, got, i => (.done got, i)
  | n + 1, got, i =>
    if i.r = i.w then (.wait (n + 1) got, i)
    else if i.next = C 'D' then
      (.done got, if got = [] then i.advance else i.advance.unread)
    else if i.next = newline then (.done (got ++ [i.next]), i.advance)
    else copyOut n (got ++ [i.next]) i.advance

/-- The bytes from the read index up to another one. -/
def upTo (i : Input) (r : UInt32) : List UInt8 :=
  (List.range (r - i.r).toNat).map fun k => i.buf (Fin.ofNat INPUT_BUF (i.r.toNat + k))

/-- `copyOut` with the bytes it has moved the read index over. -/
def read (n : Nat) (got : List UInt8) (i : Input) : Progress × Input × List UInt8 :=
  ((copyOut n got i).1, (copyOut n got i).2, i.upTo (copyOut n got i).2.r)

end Input

/-! ## What the buffer is for -/

/-- The input as lists: the bytes reads have taken, those committed and not taken, and those
typed since the last commit. -/
structure Line where
  taken : List UInt8
  pending : List UInt8
  edit : List UInt8

namespace Line

def empty : Line := ⟨[], [], []⟩

def committed (l : Line) : List UInt8 := l.taken ++ l.pending

/-- Bytes that take up room. -/
def used (l : Line) : Nat := l.pending.length + l.edit.length

/-- An ordinary character is accepted if there is room.  A newline, `^D` and the character
that fills the buffer commit the line. -/
def insert (c : UInt8) (l : Line) : Line × Bool :=
  if c ≠ 0 ∧ l.used < INPUT_BUF then
    if Input.fold c = newline ∨ Input.fold c = C 'D' ∨ l.used + 1 = INPUT_BUF then
      (⟨l.taken, l.pending ++ (l.edit ++ [Input.fold c]), []⟩, true)
    else (⟨l.taken, l.pending, l.edit ++ [Input.fold c]⟩, false)
  else (l, false)

/-- `^U` removes what was typed since the last commit, backspace and delete the last
character of it. -/
def key (c : UInt8) (l : Line) : Line × Bool :=
  if c = C 'P' then (l, false)
  else if c = C 'U' then (⟨l.taken, l.pending, []⟩, false)
  else if c = C 'H' ∨ c = delete then (⟨l.taken, l.pending, l.edit.dropLast⟩, false)
  else l.insert c

def take (l : Line) (c : UInt8) (q : List UInt8) : Line := ⟨l.taken ++ [c], q, l.edit⟩

/-- A read: up to `n` bytes, up to a newline, or up to a `^D`, which is taken only by a read
that has nothing else. -/
def copyOut : Nat → List UInt8 → Line → Progress × Line
  | 0, got, l => (.done got, l)
  | n + 1, got, l =>
    match l.pending with
    | [] => (.wait (n + 1) got, l)
    | c :: q =>
      if c = C 'D' then (.done got, if got = [] then l.take c q else l)
      else if c = newline then (.done (got ++ [c]), l.take c q)
      else copyOut n (got ++ [c]) (l.take c q)

theorem copyOut_nil {l : Line} (h : l.pending = []) (n : Nat) (got : List UInt8) :
    l.copyOut (n + 1) got = (.wait (n + 1) got, l) := by
  rw [copyOut, h]

theorem copyOut_cons {l : Line} {c : UInt8} {q : List UInt8} (h : l.pending = c :: q) (n : Nat)
    (got : List UInt8) : l.copyOut (n + 1) got =
      if c = C 'D' then (.done got, if got = [] then l.take c q else l)
      else if c = newline then (.done (got ++ [c]), l.take c q)
      else copyOut n (got ++ [c]) (l.take c q) := by
  rw [copyOut, h]

/-- `copyOut` with the bytes it has taken. -/
def read (n : Nat) (got : List UInt8) (l : Line) : Progress × Line × List UInt8 :=
  ((copyOut n got l).1, (copyOut n got l).2, (copyOut n got l).2.taken.drop l.taken.length)

end Line

/-! ## The buffer holds a line -/

/-- The array and the counters hold the pending bytes and the line being edited. -/
structure Input.Holds (i : Input) (l : Line) : Prop where
  rep : Fifo.Rep INPUT_BUF (2 ^ 32) i.buf i.r.toNat i.e.toNat (l.pending ++ l.edit)
  mark : i.w.toNat = (i.r.toNat + l.pending.length) % 2 ^ 32
  /-- A newline commits the line it ends. -/
  open_ : newline ∉ l.edit

theorem inputBuf_lt : INPUT_BUF < 2 ^ 32 := by decide

theorem inputBuf_dvd : INPUT_BUF ∣ 2 ^ 32 := by decide

namespace Input.Holds

variable {i : Input} {l : Line}

theorem init : Input.init.Holds Line.empty :=
  ⟨.nil _ (show (0 : Nat) < 2 ^ 32 by decide), rfl, not_mem_nil⟩

section

variable (h : i.Holds l)
include h

/-- The committed bytes are between `r` and `w`. -/
theorem committed : Fifo.Rep INPUT_BUF (2 ^ 32) i.buf i.r.toNat i.w.toNat l.pending := by
  rw [h.mark]
  exact h.rep.take_left

theorem sub_r : (i.e - i.r).toNat = l.used := by
  rw [UInt32.toNat_sub, Nat.add_comm, Line.used, ← length_append]
  exact h.rep.sub_mod inputBuf_lt

theorem w_sub_r : (i.w - i.r).toNat = l.pending.length := by
  rw [UInt32.toNat_sub, Nat.add_comm]
  exact h.committed.sub_mod inputBuf_lt

theorem sub_w : (i.e - i.w).toNat = l.edit.length := by
  have h₁ := h.sub_r
  have h₂ := h.w_sub_r
  rw [Line.used] at h₁
  have he : i.e - i.w = (i.e - i.r) - (i.w - i.r) := (sub_sub_sub_cancel_right _ _ _).symm
  have hlt := (i.e - i.r).toNat_lt
  rw [he, UInt32.toNat_sub, h₁, h₂]
  omega

theorem used_le : l.used ≤ INPUT_BUF := by
  rw [Line.used, ← length_append]
  exact h.rep.length

theorem eq_w_iff : i.r = i.w ↔ l.pending = [] := by
  rw [← h.committed.eq_iff inputBuf_lt, ← UInt32.toNat_inj]
  exact eq_comm

theorem e_eq_w_iff : i.e = i.w ↔ l.edit = [] := by
  rw [← length_eq_zero_iff, ← h.sub_w]
  constructor
  · intro he
    rw [he, sub_self]
    rfl
  · intro he
    have : i.e - i.w = 0 := UInt32.toNat_inj.mp he
    rwa [sub_eq_zero] at this

/-! ## The editing keys -/

theorem erase {c : UInt8} {edit : List UInt8} (he : l.edit = edit ++ [c]) :
    i.buf (cell (i.e - 1)) = c ∧ i.erase.Holds ⟨l.taken, l.pending, edit⟩ := by
  have hrep := h.rep
  rw [he, ← append_assoc] at hrep
  have hsub : (i.e - 1).toNat = (i.e.toNat + (2 ^ 32 - 1)) % 2 ^ 32 := by
    rw [UInt32.toNat_sub, Nat.add_comm]
    rfl
  obtain ⟨h₁, h₂⟩ := hrep.unpush inputBuf_dvd
  refine ⟨?_, ?_, h.mark, fun hn => h.open_ ?_⟩
  · rw [cell, hsub]
    exact h₁
  · rw [← hsub] at h₂
    exact h₂
  · rw [he]
    exact mem_append_left _ hn

theorem backspace : i.backspace.Holds ⟨l.taken, l.pending, l.edit.dropLast⟩ := by
  rw [Input.backspace]
  rcases eq_nil_or_concat l.edit with he | ⟨edit, c, he⟩
  · rw [if_neg (not_not.mpr (h.e_eq_w_iff.mpr he)), he, dropLast_nil, ← he]
    exact h
  · rw [concat_eq_append] at he
    have hne : i.e ≠ i.w := fun hc => by
      have := h.e_eq_w_iff.mp hc
      rw [he] at this
      exact absurd this (by simp)
    rw [if_pos hne, he, dropLast_concat]
    exact (h.erase he).2

end

/-- `^U` erases the whole line: there is no newline in it to stop at. -/
theorem killLoop : ∀ (n : Nat) {i : Input} {l : Line}, i.Holds l → l.edit.length = n →
    (Input.killLoop n i).Holds ⟨l.taken, l.pending, []⟩
  | 0, i, l, h, hn => by
    have he : l.edit = [] := length_eq_zero_iff.mp hn
    rw [Input.killLoop, ← he]
    exact h
  | n + 1, i, l, h, hn => by
    rcases eq_nil_or_concat l.edit with he | ⟨edit, c, he⟩
    · rw [he] at hn
      cases hn
    · rw [concat_eq_append] at he
      obtain ⟨hc, herase⟩ := h.erase he
      have hne : i.e ≠ i.w := fun hc => by
        have := h.e_eq_w_iff.mp hc
        rw [he] at this
        exact absurd this (by simp)
      have hnl : i.buf (cell (i.e - 1)) ≠ newline := by
        rw [hc]
        rintro rfl
        exact h.open_ (he ▸ mem_append_right _ (mem_singleton_self _))
      rw [he, length_append, length_singleton] at hn
      rw [Input.killLoop, if_pos ⟨hne, hnl⟩]
      have ih := killLoop n herase (Nat.succ.inj hn)
      exact ih

section

variable (h : i.Holds l)
include h

theorem killLine : i.killLine.Holds ⟨l.taken, l.pending, []⟩ :=
  killLoop _ h h.sub_w.symm

/-! ## Ordinary characters -/

/-- A character goes to the end of the line. -/
theorem put_rep (hroom : l.used < INPUT_BUF) (c : UInt8) :
    Fifo.Rep INPUT_BUF (2 ^ 32) (i.put c).buf (i.put c).r.toNat (i.put c).e.toNat
      (l.pending ++ (l.edit ++ [c])) := by
  rw [Line.used, ← length_append] at hroom
  have := h.rep.push inputBuf_dvd hroom c
  rw [append_assoc] at this
  rwa [Input.put, UInt32.toNat_add]

theorem put (hroom : l.used < INPUT_BUF) {c : UInt8} (hc : c ≠ newline) :
    (i.put c).Holds ⟨l.taken, l.pending, l.edit ++ [c]⟩ := by
  refine ⟨h.put_rep hroom c, h.mark, fun hn => ?_⟩
  rcases mem_append.mp hn with hn | hn
  · exact h.open_ hn
  · exact hc (mem_singleton.mp hn).symm

theorem put_commit (hroom : l.used < INPUT_BUF) (c : UInt8) :
    (i.put c).commit.Holds ⟨l.taken, l.pending ++ (l.edit ++ [c]), []⟩ := by
  have hrep := h.put_rep hroom c
  exact ⟨by rw [append_nil]; exact hrep, hrep.tail, not_mem_nil⟩

theorem room_iff : i.e - i.r < UInt32.ofNat INPUT_BUF ↔ l.used < INPUT_BUF := by
  rw [UInt32.lt_iff_toNat_lt, h.sub_r]
  rfl

theorem full_iff (hroom : l.used < INPUT_BUF) (c : UInt8) :
    (i.put c).e = i.r + UInt32.ofNat INPUT_BUF ↔ l.used + 1 = INPUT_BUF := by
  have := (h.put_rep hroom c).eq_add_iff inputBuf_lt
  rw [← append_assoc, length_append, length_append, length_singleton] at this
  rw [Line.used, ← this, ← UInt32.toNat_inj, UInt32.toNat_add]
  rfl

theorem insert (c : UInt8) :
    (i.insert c).1.Holds (l.insert c).1 ∧ (i.insert c).2 = (l.insert c).2 := by
  rw [Input.insert, Line.insert]
  by_cases hin : c ≠ 0 ∧ l.used < INPUT_BUF
  · have hin' : c ≠ 0 ∧ i.e - i.r < UInt32.ofNat INPUT_BUF := ⟨hin.1, h.room_iff.mpr hin.2⟩
    rw [if_pos hin, if_pos hin']
    have hfull := h.full_iff hin.2 (Input.fold c)
    by_cases hend : Input.fold c = newline ∨ Input.fold c = C 'D' ∨ l.used + 1 = INPUT_BUF
    · rw [if_pos hend, if_pos (hend.imp_right (.imp_right hfull.mpr))]
      exact ⟨h.put_commit hin.2 _, rfl⟩
    · rw [if_neg hend, if_neg fun hc => hend (hc.imp_right (.imp_right hfull.mp))]
      exact ⟨h.put hin.2 fun hc => hend (.inl hc), rfl⟩
  · have hin' : ¬ (c ≠ 0 ∧ i.e - i.r < UInt32.ofNat INPUT_BUF) :=
      fun hc => hin ⟨hc.1, h.room_iff.mp hc.2⟩
    rw [if_neg hin, if_neg hin']
    exact ⟨h, rfl⟩

/-- **A turn of `consoleintr`.** -/
theorem key (c : UInt8) : (i.key c).1.Holds (l.key c).1 ∧ (i.key c).2 = (l.key c).2 := by
  rw [Input.key, Line.key]
  split
  · exact ⟨h, rfl⟩
  · split
    · exact ⟨h.killLine, rfl⟩
    · split
      · exact ⟨h.backspace, rfl⟩
      · exact h.insert c

/-! ## Reads -/

theorem advance {c : UInt8} {q : List UInt8} (hq : l.pending = c :: q) :
    i.next = c ∧ i.advance.Holds (l.take c q) := by
  have hrep := h.rep
  rw [hq, cons_append] at hrep
  obtain ⟨h₁, h₂⟩ := hrep.pop inputBuf_dvd
  refine ⟨h₁, ?_, ?_, h.open_⟩
  · rwa [Input.advance, UInt32.toNat_add]
  · have hm := h.mark
    rw [hq, length_cons] at hm
    rw [Input.advance, UInt32.toNat_add, hm]
    change _ = ((i.r.toNat + 1) % 2 ^ 32 + q.length) % 2 ^ 32
    omega

end

theorem advance_unread (i : Input) : i.advance.unread = i := by
  rw [Input.unread, Input.advance, add_sub_cancel_right]

/-- **The loop of `consoleread`.** -/
theorem copyOut : ∀ (n : Nat) (got : List UInt8) {i : Input} {l : Line}, i.Holds l →
    (i.copyOut n got).1 = (l.copyOut n got).1 ∧
      (i.copyOut n got).2.Holds (l.copyOut n got).2
  | 0, got, i, l, h => ⟨rfl, h⟩
  | n + 1, got, i, l, h => by
    rw [Input.copyOut]
    rcases hp : l.pending with - | ⟨c, q⟩
    · rw [if_pos (h.eq_w_iff.mpr hp), Line.copyOut_nil hp]
      exact ⟨rfl, h⟩
    · have hne : i.r ≠ i.w := fun hc => by
        have := h.eq_w_iff.mp hc
        rw [hp] at this
        cases this
      obtain ⟨hc, hadv⟩ := h.advance hp
      rw [if_neg hne, hc, Line.copyOut_cons hp]
      split
      · refine ⟨rfl, ?_⟩
        split
        · exact hadv
        · rw [advance_unread]
          exact h
      · split
        · exact ⟨rfl, hadv⟩
        · exact copyOut n _ hadv

end Input.Holds

/-- The loop leaves the array and the other counters. -/
theorem Input.copyOut_frame : ∀ (n : Nat) (got : List UInt8) (i : Input),
    (i.copyOut n got).2.buf = i.buf ∧ (i.copyOut n got).2.e = i.e
  | 0, _, _ => ⟨rfl, rfl⟩
  | n + 1, got, i => by
    rw [Input.copyOut]
    split
    · exact ⟨rfl, rfl⟩
    · split
      · dsimp only
        split
        · exact ⟨rfl, rfl⟩
        · exact ⟨rfl, rfl⟩
      · split
        · exact ⟨rfl, rfl⟩
        · exact copyOut_frame n _ i.advance

/-- What a read comes to: a run of pending bytes is taken, and it was one of these: nothing
but a `^D`; the bytes up to the end of the read; or all there is, with some still to come. -/
inductive Line.Outcome (n : Nat) (got moved rest : List UInt8) : Progress → Prop
  | eof (hn : 0 < n) (hgot : got = []) (hm : moved = [C 'D']) : Outcome n got moved rest (.done [])
  | done (hlen : moved.length ≤ n) (heof : C 'D' ∉ moved) (hline : newline ∉ moved.dropLast)
      (hend : moved.length = n ∨ moved.getLast? = some newline ∨
        got ++ moved ≠ [] ∧ rest.head? = some (C 'D')) :
      Outcome n got moved rest (.done (got ++ moved))
  | wait (left : Nat) (hleft : 0 < left) (hlen : left + moved.length = n) (heof : C 'D' ∉ moved)
      (hline : newline ∉ moved) : Outcome n got moved rest (.wait left (got ++ moved))

/-- A first ordinary byte in front of what a read comes to. -/
theorem Line.Outcome.cons {n : Nat} {got moved rest : List UInt8} {c : UInt8} {p : Progress}
    (hc : c ≠ C 'D') (hnl : c ≠ newline) (h : Outcome n (got ++ [c]) moved rest p) :
    Outcome (n + 1) got (c :: moved) rest p := by
  cases h with
  | eof hn hgot hm => exact absurd hgot (by simp)
  | done hlen heof hline hend =>
    rw [append_assoc, singleton_append]
    refine .done (Nat.succ_le_succ hlen) (by simp [hc.symm, heof]) ?_ ?_
    · cases moved with
      | nil => simp
      | cons d moved =>
        rw [dropLast_cons_cons]
        simp only [mem_cons, not_or]
        exact ⟨hnl.symm, hline⟩
    · rcases hend with hend | hend | hend
      · exact .inl (by rw [length_cons, hend])
      · refine .inr (.inl ?_)
        cases moved with
        | nil => cases hend
        | cons d moved => rwa [List.getLast?_cons_cons]
      · exact .inr (.inr ⟨by simp, hend.2⟩)
  | wait left hleft hlen heof hline =>
    rw [append_assoc, singleton_append]
    exact .wait left hleft (by rw [length_cons]; omega) (by simp [hc.symm, heof])
      (by simp [hnl.symm, hline])

/-- **A read on the lists.** -/
theorem Line.copyOut_outcome : ∀ (n : Nat) (got : List UInt8) (l : Line),
    ∃ moved, l.pending = moved ++ (l.copyOut n got).2.pending ∧
      (l.copyOut n got).2.taken = l.taken ++ moved ∧ (l.copyOut n got).2.edit = l.edit ∧
      Outcome n got moved (l.copyOut n got).2.pending (l.copyOut n got).1
  | 0, got, l => by
    refine ⟨[], rfl, (List.append_nil _).symm, rfl, ?_⟩
    have : Outcome 0 got [] l.pending (.done (got ++ [])) :=
      .done (Nat.le_refl _) not_mem_nil not_mem_nil (.inl rfl)
    rwa [append_nil] at this
  | n + 1, got, l => by
    rcases hp : l.pending with - | ⟨c, q⟩
    · rw [Line.copyOut_nil hp]
      refine ⟨[], hp.symm, (append_nil _).symm, rfl, ?_⟩
      have : Outcome (n + 1) got [] l.pending (.wait (n + 1) (got ++ [])) :=
        .wait (n + 1) (Nat.succ_pos n) rfl not_mem_nil not_mem_nil
      rwa [append_nil] at this
    · rw [Line.copyOut_cons hp]
      split
      · rename_i hc
        subst hc
        dsimp only
        split
        · rename_i hgot
          exact ⟨[C 'D'], rfl, rfl, rfl, hgot ▸ .eof (Nat.succ_pos n) rfl rfl⟩
        · rename_i hgot
          refine ⟨[], hp.symm, (append_nil _).symm, rfl, ?_⟩
          have : Outcome (n + 1) got [] l.pending (.done (got ++ [])) :=
            .done (Nat.zero_le _) not_mem_nil not_mem_nil
              (.inr (.inr ⟨by rwa [append_nil], by rw [hp]; rfl⟩))
          rwa [append_nil] at this
      · rename_i hc
        split
        · rename_i hnl
          subst hnl
          exact ⟨[newline], rfl, rfl, rfl,
            .done (Nat.succ_le_succ (Nat.zero_le n)) (by decide) not_mem_nil
              (.inr (.inl rfl))⟩
        · rename_i hnl
          obtain ⟨moved, h₁, h₂, h₃, h₄⟩ := Line.copyOut_outcome n (got ++ [c]) (l.take c q)
          refine ⟨c :: moved, ?_, ?_, h₃, h₄.cons hc hnl⟩
          · rw [cons_append, ← h₁]
            rfl
          · rw [h₂, Line.take, append_assoc, singleton_append]

/-- **A read of the buffer is a read of the line**: same outcome, same bytes taken. -/
theorem Input.Holds.read {i : Input} {l : Line} (h : i.Holds l) (n : Nat) (got : List UInt8) :
    (i.read n got).1 = (l.read n got).1 ∧ (i.read n got).2.1.Holds (l.read n got).2.1 ∧
      (i.read n got).2.2 = (l.read n got).2.2 := by
  obtain ⟨h₁, h₂⟩ := h.copyOut n got
  refine ⟨h₁, h₂, ?_⟩
  obtain ⟨moved, hp, ht, he, -⟩ := l.copyOut_outcome n got
  obtain ⟨-, hfe⟩ := Input.copyOut_frame n got i
  have hlen : ((i.copyOut n got).2.r - i.r).toNat = moved.length := by
    have hu := h.sub_r
    have hu' := h₂.sub_r
    rw [Line.used, he] at hu'
    rw [Line.used, hp, length_append] at hu
    have hd : (i.copyOut n got).2.r - i.r = (i.e - i.r) - (i.e - (i.copyOut n got).2.r) :=
      (sub_sub_sub_cancel_left _ _ _).symm
    have hlt := (i.e - i.r).toNat_lt
    rw [hfe] at hu'
    rw [hd, UInt32.toNat_sub, hu, hu']
    omega
  rw [Input.read, Line.read]
  dsimp only
  rw [Input.upTo, hlen, ht, drop_left]
  refine ext_getElem (by simp) fun k hk hk' => ?_
  rw [getElem_map, getElem_range, h.rep.slot k]
  · simp only [hp, append_assoc]
    exact getElem_append_left hk'
  · rw [hp, append_assoc, length_append]
    omega

end Xv6.Console
