/-
# `Xv6.Bio.Raw` — transfers through the disk nodes are byte-exact

`ideread` and `idewrite` cut a transfer at the ends of the blocks: a first piece behind
the offset, whole blocks, and a last piece.  The loop lemma of `Xv6.Bio.Nodes` says that
the pieces add up.  Here this becomes a statement about the bytes of the disk: reading
returns those from the offset on, writing replaces them and no others, and what was
written is read back.

`bwrite` goes to the disk at once.  So if the cache holds nothing that the disk does not
have, the same is true after the write, and the bytes are on the disk itself.

A transfer does not get further than the disk: behind its last block `idestart` panics.
-/
import Xv6.Bio.Nodes

namespace Xv6.Bio.Nodes

open Bytes Wp

variable {P : Type}

/-! ## The disk itself -/

theorem Contents.unique {lat lat' : Key → Block} {c : Bcache P} {d : Key → Block}
    (h : Contents lat c d) (h' : Contents lat' c d) : lat = lat' := by
  funext k
  rcases h.disk k with hk | ⟨i, rfl, hv, hi⟩
  · rcases h'.disk k with hk' | ⟨i, rfl, hv, -⟩
    · exact hk.symm.trans hk'
    · exact (h.data i hv).symm.trans (h'.data i hv)
  · exact (h.data i hv).symm.trans (h'.data i hv)

section Synced

variable {s : State P} {k : Key} {i : BufId} {havedisk1 : Bool} {p : P}

/-- The cache holds nothing that the disks do not have. -/
def Synced (s : State P) : Prop := Contents s.disk s.cache s.disk

/-- `bwrite` leaves no byte behind in the buffer. -/
theorem copyIn_synced (hl : Locked s.disk s k i) (start len : Int) (buf : Nat) :
    Meets (copyIn havedisk1 i start len buf) s
      (fun _ s' => Locked s'.disk s' k i ∧ Saved s'.disk s'.cache s'.disk k i) fun _ => True := by
  refine of_bind (of_get (of_ite (fun _ => of_bind (of_set ?_)) fun _ => stop_meets True.intro))
  have hfill := hl.toOurs.locked_cache (f := fun b => { b with
    data := b.data.splice start.toNat ((List.range len.toNat).map fun j => s.mem (buf + j)) }) hl.lock
    (fun _ => ⟨rfl, rfl, rfl⟩) hl.valid rfl
  refine mono (bwrite_meets hfill) (fun _ s' h => ?_) fun _ _ => True.intro
  obtain ⟨⟨hl', hs'⟩, hdisk, -, -⟩ := h
  rw [Function.update_self] at hdisk
  have hd : s'.disk = Function.update s.disk k _ := hdisk
  rw [← hd] at hl' hs'
  exact ⟨hl', hs'⟩

/-- A piece of `idewrite` and what follows. -/
theorem Locked.synced (hl : Locked s.disk s k i) (start len : Int) (buf : Nat) {rest : Op P Unit}
    (hrest : ∀ {s' : State P}, Synced s' → Meets rest s' (fun _ => Synced) fun _ => True) :
    Meets (do
      copyIn havedisk1 i start len buf
      brelse i
      rest) s (fun _ => Synced) fun _ => True := by
  refine call (copyIn_synced hl start len buf) (fun _ h => h) fun _ s₁ h₁ => ?_
  refine call (brelse_meets h₁.1 h₁.2) (fun _ h => h.elim) fun _ s₂ h₂ => hrest ?_
  obtain ⟨hc, hdisk, -, -⟩ := h₂
  rw [Synced, hdisk]
  rwa [hdisk] at hc

theorem ideLoop_synced (dev : Nat) (n : Int) :
    ∀ (fuel b : Nat) (offset num : Int) (buf : Nat) {s : State P}, Synced s →
      Meets (ideLoop havedisk1 p (copyIn havedisk1) dev n fuel b offset num buf) s (fun _ => Synced)
        fun _ => True
  | 0, _, _, _, _, _, h => of_pure h
  | fuel + 1, b, offset, num, buf, s, h => by
    rw [ideLoop]
    refine of_ite (fun _ => ?_) fun _ => of_pure h
    refine call (bread_meets h) (fun _ _ => True.intro) fun i s₁ h₁ => ?_
    obtain ⟨⟨hl, -⟩, hdisk, -, -⟩ := h₁
    rw [← hdisk] at hl
    refine of_ite (fun _ => ?_) fun _ => of_ite (fun _ => ?_) fun _ => ?_
    · exact hl.synced _ _ _ fun h' => ideLoop_synced dev n fuel _ _ _ _ h'
    · exact hl.synced _ _ _ fun h' => ideLoop_synced dev n fuel _ _ _ _ h'
    · exact hl.synced _ _ _ fun h' => ideLoop_synced dev n fuel _ _ _ _ h'

/-- **After `idewrite` the disks have everything**, if they had it before. -/
theorem idewrite_synced (h : Synced s) (ftable : List File) (null : Nat) (ip : Inode) (buf : Nat) (n : Int) :
    Meets (idewrite havedisk1 p ftable null ip buf n) s (fun _ => Synced) fun _ => True := by
  refine of_ite (fun _ => of_pure h) fun _ => ?_
  exact call (ideLoop_synced ip.dev n _ _ _ _ _ h) (fun _ h => h) fun _ s' h' => of_pure h'

end Synced

/-! ## The loop ends -/

section Ends

variable (havedisk1 : Bool) (p : P) (move : BufId → Int → Int → Nat → Op P Unit) (dev : Nat) (n : Int)

theorem ideLoop_done (fuel b : Nat) (offset num : Int) (buf : Nat) (h : n ≤ num) :
    ideLoop havedisk1 p move dev n fuel b offset num buf = pure () := by
  cases fuel with
  | zero => rfl
  | succ fuel =>
    exact if_neg (Int.not_lt.mpr h)

/-- Every turn moves a byte, so that nothing happens after `n` turns. -/
theorem ideLoop_ends :
    ∀ (fuel more b : Nat) (offset num : Int) (buf : Nat), n ≤ num + fuel → 0 ≤ num → offset < BSIZE →
      ideLoop havedisk1 p move dev n (fuel + more) b offset num buf =
        ideLoop havedisk1 p move dev n fuel b offset num buf
  | 0, more, b, offset, num, buf, hn, _, _ => by
    rw [ideLoop_done _ _ _ _ _ _ _ _ _ _ (by omega), ideLoop_done _ _ _ _ _ _ _ _ _ _ (by omega)]
  | fuel + 1, more, b, offset, num, buf, hn, h₀, hoff => by
    have next : ∀ (b buf : Nat) (offset len : Int), 1 ≤ len → offset < BSIZE →
        ideLoop havedisk1 p move dev n (fuel + more) b offset (num + len) buf =
          ideLoop havedisk1 p move dev n fuel b offset (num + len) buf := fun b buf offset len hlen ho =>
      ideLoop_ends fuel more b offset (num + len) buf (by omega) (by omega) ho
    rw [Nat.succ_add, ideLoop, ideLoop]
    split
    · rename_i hlt
      have hfirst : 1 ≤ if (n + offset).bmod (2 ^ 32) < BSIZE then n else BSIZE - offset := by
        split
        · omega
        · omega
      simp only [next _ _ _ _ hfirst (show (0 : Int) < BSIZE by decide),
        next _ _ offset (n - num) (by omega) hoff, next _ _ offset BSIZE (by decide) hoff]
    · rfl

end Ends

/-! ## Whole transfers -/

/-- **Transfers are byte-exact.**  `ideread` returns the `n` bytes from the offset on, of the disk of
the inode, and changes no disk.  `idewrite` replaces these bytes of what that disk holds and no
others, also on the disk itself if nothing was waiting in the cache, and `ideread` then returns what
was written.  Both return if nobody else has a buffer and the bytes are within the disk, and no
transfer takes more than `n` turns of the loop. -/
theorem raw_transfer_exact (havedisk1 : Bool) (p : P) (ftable : List File) (null : Nat) (ip : Inode)
    (buf : Nat) (n : Int) {lat : Key → Block} {s : State P} (hc : Contents lat s.cache s.disk)
    (hoff : 0 ≤ getOffset ftable null ip.inum) (hn : 0 ≤ n)
    (hsum : getOffset ftable null ip.inum + n < 2 ^ 31) :
    let pos := (getOffset ftable null ip.inum).toNat
    Meets (ideread havedisk1 p ftable null ip buf n) s
      (fun r s' => r = n ∧ s'.disk = s.disk ∧ Contents lat s'.cache s'.disk ∧
        s'.mem = store s.mem buf n.toNat fun j => byteAt lat ip.dev (pos + j))
      (fun _ => True) ∧
    Meets (idewrite havedisk1 p ftable null ip buf n) s
      (fun r s' => r = n ∧ s'.mem = s.mem ∧ ∃ lat', Contents lat' s'.cache s'.disk ∧
        byteAt lat' ip.dev = store (byteAt lat ip.dev) pos n.toNat (fun j => s.mem (buf + j)) ∧
        (∀ k, k.1 ≠ ip.dev → lat' k = lat k) ∧ (s.disk = lat → s'.disk = lat') ∧
        ∀ buf', Meets (ideread havedisk1 p ftable null ip buf' n) s'
          (fun _ s'' => ∀ j < n.toNat, s''.mem (buf' + j) = s.mem (buf + j)) fun _ => True)
      (fun _ => True) ∧
    (Quiet s.cache → (ip.dev ≠ 0 → havedisk1 = true) → (n ≠ 0 → pos + n.toNat ≤ FSSIZE * BSIZE) →
      (∃ s', ideread havedisk1 p ftable null ip buf n s = .ok (n, s')) ∧
        ∃ s', idewrite havedisk1 p ftable null ip buf n s = .ok (n, s') ∧
          ∀ buf', ∃ s'', ideread havedisk1 p ftable null ip buf' n s' = .ok (n, s'')) ∧
    ∀ (move : BufId → Int → Int → Nat → Op P Unit) (b : Nat) (more : Nat),
      ideLoop havedisk1 p move ip.dev n (n.toNat + more) b
          ((getOffset ftable null ip.inum).tmod BSIZE) 0 buf =
        ideLoop havedisk1 p move ip.dev n n.toNat b ((getOffset ftable null ip.inum).tmod BSIZE) 0 buf := by
  intro pos
  have hlt := getOffset_lt ftable null ip.inum
  have hmod : getOffset ftable null ip.inum % BSIZE + n < 2 ^ 31 := by
    simp only [BSIZE] at *
    omega
  have hread : ∀ (buf : Nat) {lat : Key → Block} {s : State P}, Contents lat s.cache s.disk →
      Meets (ideread havedisk1 p ftable null ip buf n) s
        (fun r s' => r = n ∧ Done (fun _ => False) lat s
          (lat, store s.mem buf n.toNat fun j => byteAt lat ip.dev (pos + j)) s')
        fun _ => ¬ (Quiet s.cache ∧ Within havedisk1 ip.dev pos n.toNat) := fun buf _ s hc =>
    mono (ideTransfer_meets p ip buf (copyOut_transfers havedisk1 ip.dev) hc hoff hlt hmod)
      (fun _ _ h => ⟨by omega, h.2⟩) fun _ hx => hx.2
  have hwrite : Meets (idewrite havedisk1 p ftable null ip buf n) s
      (fun r s' => r = n ∧ Done (fun k => k.1 = ip.dev) lat s
        (written lat ip.dev pos n.toNat fun j => s.mem (buf + j), s.mem) s')
      fun _ => ¬ (Quiet s.cache ∧ Within havedisk1 ip.dev pos n.toNat) :=
    mono (ideTransfer_meets p ip buf (copyIn_transfers havedisk1 ip.dev) hc hoff hlt hmod)
      (fun _ _ h => ⟨by omega, h.2⟩) fun _ hx => hx.2
  refine ⟨mono (hread buf hc) ?_ fun _ _ => True.intro, ?_, fun hq hd hend => ?_, fun move b more => ?_⟩
  · rintro r s' ⟨hr, hc', hmem, hf, -⟩
    exact ⟨hr, funext fun k => (hf k id).1, hc', hmem⟩
  · have hsync : Meets (idewrite havedisk1 p ftable null ip buf n) s
        (fun _ s' => s.disk = lat → Synced s') fun _ => True := by
      by_cases hs : s.disk = lat
      · have hs' : Synced s := by
          rw [Synced, hs]
          rwa [hs] at hc
        exact mono (idewrite_synced hs' ftable null ip buf n) (fun _ _ h _ => h) fun _ h => h
      · exact mono hwrite (fun _ _ _ h => absurd h hs) fun _ _ => True.intro
    refine mono (both hwrite hsync) ?_ fun _ _ => True.intro
    rintro r s' ⟨⟨hr, hc', hmem, hf, -⟩, hs⟩
    refine ⟨hr, hmem, _, hc', byteAt_setDisk _, fun k hk => (hf k hk).2,
      fun he => (hs he).unique hc', fun buf' => mono (hread buf' hc') ?_ fun _ _ => True.intro⟩
    rintro _ s'' ⟨-, -, hmem', -⟩ j hj
    rw [hmem']
    simp only [written, byteAt_setDisk, store]
    rw [if_pos (by omega), if_pos (by omega), Nat.add_sub_cancel_left, Nat.add_sub_cancel_left]
  · have hw : Within havedisk1 ip.dev pos n.toNat := ⟨hd, fun h => hend (by omega)⟩
    refine ⟨?_, ?_⟩
    · obtain ⟨r, s', h, rfl, -⟩ := returns (mono (hread buf hc) (fun _ _ h => h) fun _ hx => hx ⟨hq, hw⟩)
      exact ⟨s', h⟩
    · obtain ⟨r, s', h, rfl, hc', -, -, hq'⟩ :=
        returns (mono hwrite (fun _ _ h => h) fun _ hx => hx ⟨hq, hw⟩)
      refine ⟨s', h, fun buf' => ?_⟩
      obtain ⟨r', s'', h', rfl, -⟩ :=
        returns (mono (hread buf' hc') (fun _ _ h => h) fun _ hx => hx ⟨hq' hq, hw⟩)
      exact ⟨s'', h'⟩
  · refine ideLoop_ends havedisk1 p move ip.dev n n.toNat more b _ 0 buf (by omega) (Int.le_refl 0) ?_
    rw [Int.tmod_eq_emod_of_nonneg hoff]
    simp only [BSIZE]
    omega

/-- Three bytes across the end of a block: they are on the disk, and read back. -/
theorem raw_transfer_exact_three :
    ∃ s', idewrite true () [⟨some 20, 511⟩] 0 ⟨1, 20, 1⟩ 0 3 freshState = .ok (3, s') ∧
      byteAt s'.disk 1 = store (fun _ => 0) 511 3 (fun _ => 7) := by
  have hoff : getOffset [⟨some 20, 511⟩] 0 20 = 511 := by decide
  obtain ⟨-, hwrite, hret, -⟩ := raw_transfer_exact true () [⟨some 20, 511⟩] 0 ⟨1, 20, 1⟩ 0 3
    freshState_contents (by rw [hoff]; decide) (by decide) (by rw [hoff]; decide)
  obtain ⟨-, s', h, -⟩ := hret ⟨fun _ => rfl, ⟨0, by decide⟩, rfl, rfl⟩ (fun _ => rfl)
    fun _ => by rw [hoff]; decide
  obtain ⟨-, -, lat', -, hbytes, -, hdisk, -⟩ := ok hwrite h
  have hzero : byteAt (fun _ => Buffer.zero) 1 = fun _ => 0 := funext fun _ => Buffer.byte_zero _
  have hpos : (getOffset [⟨some 20, 511⟩] 0 20).toNat = 511 := by decide
  refine ⟨s', h, ?_⟩
  rw [hdisk rfl, hbytes, hzero, hpos]
  rfl

/-- **A transfer ends at the last block**: behind it `idestart` panics, also if the offset and the
number of bytes are small. -/
theorem raw_transfer_past_end :
    Contents (fun _ => Buffer.zero) freshState.cache freshState.disk ∧
    getOffset [⟨some 20, 512000⟩] 0 20 = 512000 ∧ (512000 : Int) + 1 < 2 ^ 31 ∧
    (∃ s', ideread true () [⟨some 20, 512000⟩] 0 ⟨1, 20, 1⟩ 0 1 freshState = .error (.incorrectBlockno, s')) ∧
    ∃ s', idewrite true () [⟨some 20, 512000⟩] 0 ⟨1, 20, 1⟩ 0 1 freshState = .error (.incorrectBlockno, s') := by
  have fails : ∀ {x : Op Unit Int}, (match x freshState with
      | .ok _ => false
      | .error e => decide (e.1 = .incorrectBlockno)) = true →
      ∃ s', x freshState = .error (.incorrectBlockno, s') := fun {x} h => by
    cases hx : x freshState with
    | ok r => rw [hx] at h; cases h
    | error e =>
      rw [hx] at h
      obtain ⟨halt, s'⟩ := e
      exact ⟨s', by rw [show halt = .incorrectBlockno from of_decide_eq_true h]⟩
  exact ⟨freshState_contents, by decide, by decide, fails (by decide +kernel), fails (by decide +kernel)⟩

end Xv6.Bio.Nodes
