/-
# `Xv6.Vm.Stack` — the arguments of a new program

`exec` puts the argument strings on top of the stack page, each at a multiple of 4, and below
them the words of `ustack`: a return address that is none, `argc`, the pointer to `argv`, the
pointers and a null pointer.

    top                           end of the stack page
    argPtrs[0]                    argv[0], its zero, padding
    ...
    spEnd                         argv[argc-1]
    esp + 12                      the pointers and 0
    esp                           0xFFFFFFFF, argc, esp + 12
    top - 4096                    the guard page ends here

`stackNeed` is what the strings take and `argTotal` all of it.  Up to a page it fits, and the
loop writes each object once and below what it has written before.  Past a page and up to
two, the first object that begins in the guard page is refused by `copyout`.
-/
import Xv6.Vm.Program

namespace Xv6.Vm

open Wp List
open Function (update)

/-! ## Sizes and addresses -/

/-- The bytes a string takes on the stack. -/
def CStr.padded (s : CStr) : Nat := (s.bytes.length + 4) / 4 * 4

/-- The bytes the strings take. -/
def stackNeed (ss : List CStr) : Nat := (ss.map CStr.padded).sum

/-- The bytes the arguments take. -/
def argTotal (argv : List CStr) : Nat := stackNeed argv + 4 * (argv.length + 4)

theorem CStr.lt_padded (s : CStr) : s.bytes.length + 1 ≤ s.padded := by
  unfold CStr.padded
  omega

theorem CStr.padded_mod (s : CStr) : s.padded % 4 = 0 := by
  unfold CStr.padded
  omega

theorem stackNeed_cons (s : CStr) (ss : List CStr) : stackNeed (s :: ss) = s.padded + stackNeed ss := by
  rfl

theorem stackNeed_append (ss ss' : List CStr) : stackNeed (ss ++ ss') = stackNeed ss + stackNeed ss' := by
  unfold stackNeed
  rw [map_append, sum_append]

theorem stackNeed_take_succ {ss : List CStr} {i : Nat} {s : CStr} (hs : s ∈ ss[i]?) :
    stackNeed (ss.take (i + 1)) = stackNeed (ss.take i) + s.padded := by
  rw [take_add_one, hs, stackNeed_append, Option.toList_some, stackNeed_cons]
  rfl

theorem stackNeed_take_le (ss : List CStr) {i j : Nat} (h : i ≤ j) :
    stackNeed (ss.take i) ≤ stackNeed (ss.take j) := by
  induction h with
  | refl => exact le_rfl
  | step _ ih =>
    rw [take_add_one, stackNeed_append]
    omega

theorem stackNeed_take (ss : List CStr) (i : Nat) : stackNeed (ss.take i) ≤ stackNeed ss := by
  have hle := stackNeed_take_le ss (Nat.le_max_left i ss.length)
  rwa [take_of_length_le (Nat.le_max_right ..)] at hle

theorem toNat_spAfter {sp : Word} {s : CStr} (hal : sp.toNat % 4 = 0) (hle : s.padded ≤ sp.toNat) :
    (spAfter sp s).toNat = sp.toNat - s.padded := by
  have hround : (spAfter sp s).toNat = (sp - (s.strlen + 1)).toNat / 4 * 4 := and_not_mask _ 2
  rw [hround, BitVec.toNat_sub, s.toNat_size]
  unfold CStr.padded at hle ⊢
  omega

/-- **Where the strings are.** -/
theorem toNat_argPtrs {ss : List CStr} : ∀ {sp : Word} {i : Nat}, sp.toNat % 4 = 0 →
    stackNeed ss ≤ sp.toNat → i < ss.length →
    ((argPtrs sp ss).getD i 0).toNat = sp.toNat - stackNeed (ss.take (i + 1)) := by
  induction ss with
  | nil => exact fun _ _ hi => absurd hi (Nat.not_lt_zero _)
  | cons s ss ih =>
    intro sp i hal hle hi
    rw [stackNeed_cons] at hle
    have hmod := s.padded_mod
    have hsp := toNat_spAfter (s := s) hal (by omega)
    rw [take_succ_cons, stackNeed_cons]
    cases i with
    | zero =>
      exact hsp
    | succ i =>
      have hrec := ih (show (spAfter sp s).toNat % 4 = 0 by omega) (by omega) (Nat.lt_of_succ_lt_succ hi)
      show ((argPtrs (spAfter sp s) ss).getD i 0).toNat = _
      omega

theorem toNat_spEnd {ss : List CStr} : ∀ {sp : Word}, sp.toNat % 4 = 0 → stackNeed ss ≤ sp.toNat →
    (spEnd sp ss).toNat = sp.toNat - stackNeed ss := by
  induction ss with
  | nil => exact fun _ _ => rfl
  | cons s ss ih =>
    intro sp hal hle
    rw [stackNeed_cons] at hle ⊢
    have hmod := s.padded_mod
    have hsp := toNat_spAfter (s := s) hal (by omega)
    have hrec := ih (show (spAfter sp s).toNat % 4 = 0 by omega) (by omega)
    show (spEnd (spAfter sp s) ss).toNat = _
    omega

/-! ## The two pages -/

/-- **The stack page and the guard page below it.** -/
structure Guarded (m : Word → Page) (d : Word) (top : Nat) : Prop where
  aligned : top % 4096 = 0
  low : 8192 ≤ top
  high : top ≤ 2 ^ 31
  stack : ∀ a : Word, top ≤ a.toNat + 4096 → a.toNat < top → UserPte (view m d (vpn a))
  guard : ∀ a : Word, top ≤ a.toNat + 8192 → a.toNat + 4096 < top →
    Present (view m d (vpn a)) ∧ ¬ UserPte (view m d (vpn a))

section

variable {L : Link} {own : Word → Owner} {k k' : Kmem} {cur d va len : Word} {src : Nat → Byte} {top : Nat}

theorem Guarded.congr {m m' : Word → Page} (h : Guarded m d top) (hv : view m' d = view m d) :
    Guarded m' d top := by
  refine ⟨h.aligned, h.low, h.high, ?_, ?_⟩
  · rw [hv]
    exact h.stack
  · rw [hv]
    exact h.guard

/-- A byte of the user outside what is written. -/
theorem Wrote.byteAt_other {n : Nat} (hw : Wrote d va src n k k') (h : Ready L cur d own k)
    (hview : view k'.mem d = view k.mem d) (huser : ∀ i < n, UserPte (view k.mem d (vpn (plus va i))))
    {a : Word} (ha : UserPte (view k.mem d (vpn a))) (hne : ∀ i < n, plus va i ≠ a) :
    byteAt k'.mem d a = byteAt k.mem d a := by
  have hmiss := hw.miss (physAt k.mem d a).1 (physAt k.mem d a).2 (Nat.mod_lt _ (by decide))
    fun i hi heq => hne i hi (h.physAt_inj (huser i hi) ha heq)
  unfold byteAt pageAt
  rw [hview]
  exact hmiss

/-- **`copyout` into the stack page.** -/
theorem copyoutAt_stack (h : Ready L cur d own k) (hg : Guarded k.mem d top)
    (hlo : top ≤ va.toNat + 4096) (hhi : va.toNat + len.toNat ≤ top) :
    Meets (copyoutAt cur d va src len) k (fun ok k' => ok = true ∧ Ready L cur d own k' ∧
      Guarded k'.mem d top ∧ (∀ i < len.toNat, byteAt k'.mem d (plus va i) = src i) ∧
      ∀ a : Word, va.toNat + len.toNat ≤ a.toNat → a.toNat < top →
        byteAt k'.mem d a = byteAt k.mem d a) fun _ => False := by
  have htop := hg.high
  have hplus : ∀ i < len.toNat, (plus va i).toNat = va.toNat + i := fun i hi => toNat_plus (by omega)
  have huser : ∀ i < len.toNat, UserPte (view k.mem d (vpn (plus va i))) := by
    intro i hi
    have hi' := hplus i hi
    exact hg.stack _ (by omega) (by omega)
  refine mono (copyoutWith_meets _ h src (.of_user huser)) ?_ fun _ => id
  rintro ok k' ⟨h', hview, -, m, hm, -, hw, ⟨rfl, rfl⟩ | ⟨-, hlt, hno⟩⟩
  · refine ⟨rfl, h', hg.congr hview, fun i hi => ?_, fun a ha hat => ?_⟩
    · have hbyte := hw.hit i hi
      rw [← physAt_congr hview] at hbyte
      exact hbyte
    · refine hw.byteAt_other h hview huser (hg.stack a (by omega) hat) fun i hi heq => ?_
      have hi' := hplus i hi
      rw [heq] at hi'
      omega
  · exact absurd (huser m hlt) hno

/-- **`copyout` into the guard page.** -/
theorem copyoutAt_guard (h : Ready L cur d own k) (hg : Guarded k.mem d top)
    (hlo : top ≤ va.toNat + 8192) (hhi : va.toNat + 4096 < top) (hlen : 0 < len.toNat) :
    Meets (copyoutAt cur d va src len) k (fun ok _ => ok = false) fun _ => False := by
  obtain ⟨hp, hno⟩ := hg.guard va hlo hhi
  have htab : Tabled k.mem d va len.toNat := by
    intro i _ hbefore
    rcases Nat.eq_zero_or_pos i with rfl | hi
    · intro hnone
      rw [plus_zero] at hnone
      rw [view_of_none hnone] at hp
      exact not_present_zero hp
    · refine absurd (hbefore 0 hi) ?_
      rwa [plus_zero]
  refine mono (copyoutWith_meets _ h src htab) ?_ fun _ => id
  rintro ok k' ⟨-, -, -, m, -, huser, -, ⟨-, rfl⟩ | ⟨hok, -⟩⟩
  · refine absurd (huser 0 hlen) ?_
    rwa [plus_zero]
  · exact hok

/-! ## The loop over the arguments -/

/-- **The strings are on the stack** from `sp` down, and above nothing has changed. -/
structure Strings (m m' : Word → Page) (d : Word) (top : Nat) (sp : Word) (ss : List CStr) : Prop where
  text : ∀ i, ∀ s ∈ ss[i]?, ∀ j ≤ s.bytes.length,
    byteAt m' d (plus ((argPtrs sp ss).getD i 0) j) = s.byte j
  above : ∀ a : Word, sp.toNat ≤ a.toNat → a.toNat < top → byteAt m' d a = byteAt m d a

/-- **The loop over the arguments**: they fit in the stack page, or it ends at the guard page. -/
theorem pushStrings_meets (ss : List CStr) : ∀ {k : Kmem} {ptrs : List Word} {sp : Word},
    Ready L cur d own k → Guarded k.mem d top → ptrs.length + ss.length ≤ MAXARG →
    sp.toNat % 4 = 0 → top ≤ sp.toNat + 4096 → sp.toNat ≤ top → top + stackNeed ss ≤ sp.toNat + 8192 →
    Meets (pushStrings cur d ss ptrs sp) k (fun r k' =>
      top + stackNeed ss ≤ sp.toNat + 4096 ∧ r = some (ptrs ++ argPtrs sp ss, spEnd sp ss) ∧
        Ready L cur d own k' ∧ Guarded k'.mem d top ∧ Strings k.mem k'.mem d top sp ss ∨
      sp.toNat + 4096 < top + stackNeed ss ∧ r = none) fun _ => False := by
  induction ss with
  | nil =>
    intro k ptrs sp h hg _ _ hlo _ _
    refine of_pure (.inl ⟨hlo, ?_, h, hg, fun _ _ hs => (nomatch hs), fun _ _ _ => rfl⟩)
    rw [argPtrs, append_nil]
    rfl
  | cons s ss ih =>
    intro k ptrs sp h hg hmax hal hlo hhi hroom
    have htop := hg.low
    rw [stackNeed_cons] at hroom ⊢
    have hmod := s.padded_mod
    have hpad := s.lt_padded
    have hsp := toNat_spAfter (s := s) hal (by omega)
    have hsize := s.toNat_size
    rw [length_cons] at hmax
    refine of_neg (by omega) ?_
    by_cases hfit : top ≤ (spAfter sp s).toNat + 4096
    · refine call (copyoutAt_stack h hg hfit (by omega)) (fun _ => id) ?_
      rintro ok k₁ ⟨rfl, h₁, hg₁, htext, habove⟩
      have hlen : (ptrs ++ [spAfter sp s]).length + ss.length ≤ MAXARG := by
        rw [length_append, length_singleton]
        omega
      refine of_true (mono (ih h₁ hg₁ hlen (by omega) hfit (by omega) (by omega)) ?_ fun _ => id)
      rintro r k' (⟨hfit', hr, h', hg', hstrings⟩ | ⟨hno, hr⟩)
      · refine .inl ⟨by omega, ?_, h', hg', fun i s' hs' j hj => ?_, fun a ha hat => ?_⟩
        · rw [hr, append_assoc]
          rfl
        · cases i with
          | zero =>
            obtain rfl : s = s' := Option.some.inj hs'
            have hplus : (plus (spAfter sp s) j).toNat = (spAfter sp s).toNat + j :=
              toNat_plus (by omega)
            show byteAt k'.mem d (plus (spAfter sp s) j) = s.byte j
            rw [hstrings.above _ (by omega) (by omega)]
            exact htext j (by omega)
          | succ i => exact hstrings.text i s' hs' j hj
        · rw [hstrings.above a (by omega) hat]
          exact habove a (by omega) hat
      · exact .inr ⟨by omega, hr⟩
    · refine call (copyoutAt_guard h hg (by omega) (by omega) (by omega)) (fun _ => id) ?_
      rintro ok k₁ rfl
      exact of_false (of_pure (.inr ⟨by omega, rfl⟩))

end

/-! ## What the program finds -/

/-- The word at a virtual address. -/
def wordAt (m : Word → Page) (d va : Word) : Word := packWord fun j => byteAt m d (plus va j)

/-- **The arguments on the stack of a new program** of size `sz`, with its stack pointer. -/
structure Passed (m : Word → Page) (d esp sz : Word) (argv : List CStr) : Prop where
  ret : wordAt m d esp = 0xFFFFFFFF
  argc : wordAt m d (plus esp 4) = BitVec.ofNat 32 argv.length
  null : wordAt m d (plus (wordAt m d (plus esp 8)) (4 * argv.length)) = 0
  text : ∀ i, ∀ s ∈ argv[i]?, ∀ j ≤ s.bytes.length,
    byteAt m d (plus (wordAt m d (plus (wordAt m d (plus esp 8)) (4 * i))) j) = s.byte j
  low : sz.toNat ≤ esp.toNat + 4096
  high : esp.toNat + 12 + 4 * (argv.length + 1) ≤ sz.toNat
  array : (wordAt m d (plus esp 8)).toNat = esp.toNat + 12
  strings : ∀ i, ∀ s ∈ argv[i]?, esp.toNat + 12 + 4 * (argv.length + 1) ≤
      (wordAt m d (plus (wordAt m d (plus esp 8)) (4 * i))).toNat ∧
    (wordAt m d (plus (wordAt m d (plus esp 8)) (4 * i))).toNat + s.bytes.length + 1 ≤ sz.toNat
  apart : ∀ i j, i < j → ∀ s ∈ argv[j]?,
    (wordAt m d (plus (wordAt m d (plus esp 8)) (4 * j))).toNat + s.bytes.length + 1 ≤
      (wordAt m d (plus (wordAt m d (plus esp 8)) (4 * i))).toNat
  stack : UserPte (view m d (vpn (sz - 4096)))
  guard : ¬ UserPte (view m d (vpn (sz - 8192)))

theorem packWord_extract (w : Word) : packWord (fun j => w.extractLsb' (8 * j) 8) = w := by
  ext i hi
  unfold packWord
  grind

section

variable {m : Word → Page} {d va sp : Word}

/-- Words that were copied are there as words. -/
theorem wordAt_words {ws : List Word} (h : ∀ i < 4 * ws.length, byteAt m d (plus va i) = wordsByte ws i)
    {i : Nat} (hi : i < ws.length) : wordAt m d (plus va (4 * i)) = ws.getD i 0 := by
  have hbytes : wordAt m d (plus va (4 * i)) = packWord fun j => (ws.getD i 0).extractLsb' (8 * j) 8 := by
    refine packWord_congr fun j hj => ?_
    rw [plus_plus, h _ (by omega)]
    unfold wordsByte
    rw [show (4 * i + j) / 4 = i by omega, show (4 * i + j) % 4 = j by omega]
  rw [hbytes, packWord_extract]

theorem length_ustack (ptrs : List Word) : (ustack sp ptrs).length = ptrs.length + 4 := by
  unfold ustack
  simp only [length_cons, length_append, length_nil]

/-- The pointers in `ustack`, and the null pointer after them. -/
theorem ustack_ptr (ptrs : List Word) (i : Nat) : (ustack sp ptrs).getD (3 + i) 0 = ptrs.getD i 0 := by
  rw [Nat.add_comm]
  show (ptrs ++ [0]).getD i 0 = ptrs.getD i 0
  rcases Nat.lt_trichotomy i ptrs.length with hi | rfl | hi
  · exact getD_append _ _ _ _ hi
  · rw [getD_append_right _ _ _ _ le_rfl, Nat.sub_self, getD_eq_default _ _ le_rfl]
    rfl
  · rw [getD_append_right _ _ _ _ hi.le, getD_eq_default _ _ hi.le,
      getD_eq_default _ _ (by rw [length_singleton]; omega)]

/-- **Strings, `ustack` and the two pages make the stack of a program.** -/
theorem Passed.of_block {m₀ m₁ : Word → Page} {esp top : Word} {argv : List CStr}
    (hg : Guarded m d top.toNat) (hfit : argTotal argv ≤ 4096)
    (hstrings : Strings m₀ m₁ d top.toNat top argv) (hesp : esp = spEnd top argv - ustackLen argv.length)
    (hblock : ∀ i < 4 * (argv.length + 4),
      byteAt m d (plus esp i) = wordsByte (ustack (spEnd top argv) (argPtrs top argv)) i)
    (habove : ∀ a : Word, esp.toNat + 4 * (argv.length + 4) ≤ a.toNat → a.toNat < top.toNat →
      byteAt m d a = byteAt m₁ d a) : Passed m d esp top argv := by
  have hlow := hg.low
  have haligned := hg.aligned
  unfold argTotal at hfit
  have hlen : (ustackLen argv.length).toNat = 4 * (argv.length + 4) := by
    rw [ustackLen, BitVec.toNat_ofNat]
    omega
  have hend : (spEnd top argv).toNat = top.toNat - stackNeed argv := toNat_spEnd (by omega) (by omega)
  have hesp' : esp.toNat = top.toNat - stackNeed argv - 4 * (argv.length + 4) := by
    rw [hesp, BitVec.toNat_sub, hlen]
    omega
  have hptrs := length_argPtrs argv top
  have hword : ∀ i < argv.length + 4,
      wordAt m d (plus esp (4 * i)) = (ustack (spEnd top argv) (argPtrs top argv)).getD i 0 := by
    intro i hi
    refine wordAt_words ?_ (by rw [length_ustack, hptrs]; exact hi)
    rw [length_ustack, hptrs]
    exact hblock
  have hav : wordAt m d (plus esp 8) = plus esp 12 := by
    refine (hword 2 (by omega)).trans (BitVec.eq_of_toNat_eq ?_)
    show (spEnd top argv - BitVec.ofNat 32 (((argPtrs top argv).length + 1) * 4)).toNat = _
    rw [toNat_plus (by omega), BitVec.toNat_sub, BitVec.toNat_ofNat, hptrs]
    omega
  have hptr : ∀ i ≤ argv.length, wordAt m d (plus (wordAt m d (plus esp 8)) (4 * i)) =
      (argPtrs top argv).getD i 0 := by
    intro i hi
    rw [hav, plus_plus, show 12 + 4 * i = 4 * (3 + i) by omega, hword _ (by omega), ustack_ptr]
  have hpos : ∀ i < argv.length, (wordAt m d (plus (wordAt m d (plus esp 8)) (4 * i))).toNat =
      top.toNat - stackNeed (argv.take (i + 1)) := by
    intro i hi
    rw [hptr i hi.le]
    exact toNat_argPtrs (by omega) (by omega) hi
  have hidx : ∀ i, ∀ s ∈ argv[i]?, i < argv.length := fun i s hs => List.getElem?_eq_some_iff.mp hs |>.1
  -- a string with its zero lies between the next string and the one before
  have hplace : ∀ i, ∀ s ∈ argv[i]?, (wordAt m d (plus (wordAt m d (plus esp 8)) (4 * i))).toNat +
      s.bytes.length + 1 ≤ top.toNat - stackNeed (argv.take i) := by
    intro i s hs
    have hpad := s.lt_padded
    have htake := stackNeed_take_succ hs
    have hmax := stackNeed_take argv (i + 1)
    rw [hpos i (hidx i s hs)]
    omega
  refine ⟨?_, ?_, ?_, fun i s hs j hj => ?_, by omega, by omega, ?_, fun i s hs => ⟨?_, ?_⟩,
    fun i j hij s hs => ?_, ?_, ?_⟩
  · have h0 := hword 0 (by omega)
    rw [Nat.mul_zero, plus_zero] at h0
    exact h0
  · refine (hword 1 (by omega)).trans ?_
    show BitVec.ofNat 32 (argPtrs top argv).length = _
    rw [hptrs]
  · rw [hptr _ le_rfl, getD_eq_default _ _ hptrs.le]
  · have hi := hidx i s hs
    have hp := hpos i hi
    have hpl := hplace i s hs
    have hmax := stackNeed_take argv (i + 1)
    rw [hptr i hi.le] at hp hpl ⊢
    have hplus : (plus ((argPtrs top argv).getD i 0) j).toNat = ((argPtrs top argv).getD i 0).toNat + j :=
      toNat_plus (by omega)
    rw [habove _ (by omega) (by omega)]
    exact hstrings.text i s hs j hj
  · rw [hav, toNat_plus (by omega)]
  · have hmax := stackNeed_take argv (i + 1)
    rw [hpos i (hidx i s hs)]
    omega
  · have hpl := hplace i s hs
    omega
  · have hj := hidx j s hs
    have hle := stackNeed_take_le argv hij
    have hpl := hplace j s hs
    rw [hpos i (by omega)]
    exact hpl.trans (Nat.sub_le_sub_left hle _)
  · refine hg.stack _ ?_ ?_
    · rw [BitVec.toNat_sub]
      show _ ≤ (2 ^ 32 - 4096 + top.toNat) % 2 ^ 32 + 4096
      omega
    · rw [BitVec.toNat_sub]
      show (2 ^ 32 - 4096 + top.toNat) % 2 ^ 32 < _
      omega
  · refine (hg.guard _ ?_ ?_).2
    · rw [BitVec.toNat_sub]
      show _ ≤ (2 ^ 32 - 8192 + top.toNat) % 2 ^ 32 + 8192
      omega
    · rw [BitVec.toNat_sub]
      show (2 ^ 32 - 8192 + top.toNat) % 2 ^ 32 + 4096 < _
      omega

end

/-- The stack of a program is in its stack page. -/
theorem Passed.congr {m m' : Word → Page} {d esp sz : Word} {argv : List CStr}
    (h : Passed m d esp sz argv) (hview : view m' d = view m d)
    (hbytes : ∀ a : Word, sz.toNat ≤ a.toNat + 4096 → a.toNat < sz.toNat → byteAt m' d a = byteAt m d a) :
    Passed m' d esp sz argv := by
  have hlow := h.low
  have hhigh := h.high
  have hword : ∀ a : Word, sz.toNat ≤ a.toNat + 4096 → a.toNat + 4 ≤ sz.toNat →
      wordAt m' d a = wordAt m d a := by
    intro a hlo hhi
    refine packWord_congr fun j hj => ?_
    have hj' : (plus a j).toNat = a.toNat + j := toNat_plus (by omega)
    exact hbytes _ (by omega) (by omega)
  have hesp : ∀ i, i + 4 ≤ 12 + 4 * (argv.length + 1) →
      wordAt m' d (plus esp i) = wordAt m d (plus esp i) := by
    intro i hi
    have hi' : (plus esp i).toNat = esp.toNat + i := toNat_plus (by omega)
    exact hword _ (by omega) (by omega)
  have hav := hesp 8 (by omega)
  have harray := h.array
  have hptr : ∀ i ≤ argv.length, wordAt m' d (plus (wordAt m' d (plus esp 8)) (4 * i)) =
      wordAt m d (plus (wordAt m d (plus esp 8)) (4 * i)) := by
    intro i hi
    have hi' : (plus (wordAt m d (plus esp 8)) (4 * i)).toNat = esp.toNat + 12 + 4 * i := by
      rw [toNat_plus (by omega), harray]
    rw [hav]
    exact hword _ (by omega) (by omega)
  have hidx : ∀ i, ∀ s ∈ argv[i]?, i < argv.length := fun i s hs => List.getElem?_eq_some_iff.mp hs |>.1
  refine ⟨?_, ?_, ?_, fun i s hs j hj => ?_, hlow, hhigh, ?_, fun i s hs => ?_, fun i j hij s hs => ?_, ?_,
    ?_⟩
  · have h0 := hesp 0 (by omega)
    rw [plus_zero] at h0
    exact h0.trans h.ret
  · exact (hesp 4 (by omega)).trans h.argc
  · exact (hptr _ le_rfl).trans h.null
  · have hs' := h.strings i s hs
    rw [hptr i (hidx i s hs).le]
    have hplus : (plus (wordAt m d (plus (wordAt m d (plus esp 8)) (4 * i))) j).toNat =
        (wordAt m d (plus (wordAt m d (plus esp 8)) (4 * i))).toNat + j := toNat_plus (by omega)
    rw [hbytes _ (by omega) (by omega)]
    exact h.text i s hs j hj
  · rw [hav]
    exact harray
  · rw [hptr i (hidx i s hs).le]
    exact h.strings i s hs
  · have hj := hidx j s hs
    rw [hptr j hj.le, hptr i (by omega)]
    exact h.apart i j hij s hs
  · rw [hview]
    exact h.stack
  · rw [hview]
    exact h.guard

/-! ## `exec` -/

section

variable {L : Link} {own : Word → Owner} {k : Kmem} {cur d sz : Word} {argv : List CStr}

/-- **The two pages** that `allocuvm` and `clearpteu` make. -/
theorem guarded_of_clear {m m₁ : Word → Page} {base top : Word} (htop : top.toNat = base.toNat + 8192)
    (hbase : base.toNat % 4096 = 0) (hmax : top.toNat ≤ 2 ^ 31) (hnew : Zeroed d base.toNat top.toNat m)
    (hclear : view m₁ d = update (view m d) (vpn (top - 2 * PGSIZE))
      (view m d (vpn (top - 2 * PGSIZE)) &&& ~~~ PTE_U)) : Guarded m₁ d top.toNat := by
  have hguard : (top - 2 * PGSIZE).toNat = base.toNat := by
    show (2 ^ 32 - 8192 + top.toNat) % 2 ^ 32 = _
    omega
  have hnum : ∀ a : Word, vpn a = vpn (top - 2 * PGSIZE) ↔ a.toNat / 4096 = base.toNat / 4096 := by
    intro a
    rw [← hguard, ← num_vpn, ← num_vpn]
    exact ⟨congrArg _, Vpn.num_inj⟩
  have hflags : ∀ a : Word, base.toNat ≤ a.toNat → a.toNat < top.toNat →
      PTE_FLAGS (view m d (vpn a)) = PTE_W ||| PTE_U ||| PTE_P := by
    intro a hlo hhi
    refine (hnew (vpn a) ⟨?_, ?_⟩).1
    · rw [num_vpn]
      omega
    · rw [num_vpn]
      omega
  refine ⟨by omega, by omega, hmax, fun a hlo hhi => ?_, fun a hlo hhi => ?_⟩
  · rw [hclear, Function.update_of_ne ((hnum a).not.mpr (by omega))]
    refine userPte_flags.mp ?_
    rw [hflags a (by omega) hhi]
    decide
  · have hpage := (hnum a).mpr (by omega)
    rw [hclear, hpage, Function.update_self]
    refine ⟨(present_and_not_user _).mpr ?_, fun hc => hc.2 ?_⟩
    · rw [← hpage, ← present_flags, hflags a (by omega) (by omega)]
      decide
    · have hnone : ~~~ PTE_U &&& PTE_U = 0 := by decide
      rw [BitVec.and_assoc, hnone]
      exact BitVec.and_zero

/-- **The arguments of `exec`**: if the stack can be built, they fit in its page and are there;
it is built if there are pages for it and they fit. -/
theorem pushUstack_stack (h : Draft L cur d own k sz.toNat) (hsz : sz.toNat ≤ 2 ^ 31)
    (hargc : argv.length < MAXARG) (htotal : argTotal argv ≤ 8192) :
    Meets (pushUstack L cur d sz argv) k (fun r k' =>
      (∀ top sp, r = some (top, sp) → argTotal argv ≤ 4096 ∧ Passed k'.mem d sp top argv) ∧
      (r = none → argTotal argv ≤ 4096 → sz.toNat + 16384 ≤ 2 ^ 31 →
        freePages own ≤ 1030 + sz.toNat / 4096)) fun _ => False := by
  have hup := toNat_PGROUNDUP (a := sz) (by omega)
  have hsum : (PGROUNDUP sz + 2 * PGSIZE).toNat = (PGROUNDUP sz).toNat + 8192 := by
    show ((PGROUNDUP sz).toNat + 8192) % 2 ^ 32 = _
    omega
  have hup' := toNat_PGROUNDUP (a := PGROUNDUP sz) (by omega)
  refine call (mono (allocuvm_meets h.owns h.dir (PGROUNDUP sz) (PGROUNDUP sz + 2 * PGSIZE))
    (fun _ _ => id) ?_) (fun _ => id) ?_
  · rintro _ ⟨hlt, x, hin, hp⟩
    have hlt' : (PGROUNDUP sz + 2 * PGSIZE).toNat < 2 ^ 31 := hlt
    have hin₁ := hin.1
    exact h.high x (Vpn.user_iff.mpr (hin.2.trans hlt')) (by omega) hp
  rintro top k₁ ⟨own₁, h₁, hd₁, hloc₁, ⟨rfl, -, -, hfew⟩ | ⟨hc, -⟩ | ⟨-, hlt, rfl, hfill, hzero, -⟩⟩
  · refine of_pos rfl (of_pure ⟨by simp, fun _ _ hroom => ?_⟩)
    have hsmall : (PGROUNDUP sz + 2 * PGSIZE).toNat < 2 ^ 31 := by omega
    have hle := hfew hsmall
    omega
  · have hc' : (PGROUNDUP sz + 2 * PGSIZE).toNat < (PGROUNDUP sz).toNat := hc
    omega
  generalize htop : PGROUNDUP sz + 2 * PGSIZE = top at hsum hlt hfill hzero ⊢
  have hlt' : top.toNat < 2 ^ 31 := hlt
  have hne : top ≠ 0 := by
    rintro rfl
    have hz : (0 : Word).toNat = 0 := rfl
    omega
  rw [show (PGROUNDUP (PGROUNDUP sz)).toNat = (PGROUNDUP sz).toNat by omega] at hfill hzero
  refine of_neg hne ?_
  have hguard : (vpn (top - 2 * PGSIZE)).In (PGROUNDUP sz).toNat top.toNat := by
    unfold Vpn.In
    rw [num_vpn, BitVec.toNat_sub]
    show _ ≤ (2 ^ 32 - 8192 + top.toNat) % 2 ^ 32 / 4096 * 4096 ∧
      (2 ^ 32 - 8192 + top.toNat) % 2 ^ 32 / 4096 * 4096 < _
    omega
  refine call (mono (clearpteu_meets h₁ hd₁ (top - 2 * PGSIZE)) (fun _ _ => id) fun _ hc =>
    hc ((hfill _).1 hguard)) (fun _ => id) ?_
  rintro _ k₂ ⟨h₂, hloc₂, hclear⟩
  have hg : Guarded k₂.mem d top.toNat := guarded_of_clear hsum (by omega) hlt'.le hzero hclear
  have huser : (vpn (top - 2 * PGSIZE)).User := Vpn.user_iff.mpr (hguard.2.trans hlt')
  have hkern₂ : Kern L k₂.mem d := by
    intro x hx
    rw [hclear, Function.update_of_ne (fun hc => hx (by rw [hc]; exact huser))]
    exact (h.kern.of_outside hlt'.le fun x hx => (hfill x).2 hx) x hx
  obtain ⟨hcd, hck⟩ := h.keep_cur (hloc₁.trans hloc₂)
  have hready : Ready L cur d own₁ k₂ := ⟨h₂, hd₁, hkern₂, hcd, hck⟩
  unfold argTotal at htotal ⊢
  refine call (pushStrings_meets argv hready hg (by rw [length_nil]; omega) (by omega) (by omega) le_rfl
    (by omega)) (fun _ => id) ?_
  rintro r k₃ (⟨hfit, rfl, h₃, hg₃, hstrings⟩ | ⟨hno, rfl⟩)
  · have hlen : (ustackLen argv.length).toNat = 4 * (argv.length + 4) := by
      rw [ustackLen, BitVec.toNat_ofNat]
      omega
    have hend : (spEnd top argv).toNat = top.toNat - stackNeed argv := toNat_spEnd (by omega) (by omega)
    have hva : (spEnd top argv - ustackLen argv.length).toNat =
        top.toNat - stackNeed argv - 4 * (argv.length + 4) := by
      rw [BitVec.toNat_sub, hlen]
      omega
    rw [nil_append]
    dsimp only [copyUstack]
    rw [length_argPtrs]
    by_cases hall : stackNeed argv + 4 * (argv.length + 4) ≤ 4096
    · refine call (copyoutAt_stack h₃ hg₃ (by omega) (by omega)) (fun _ => id) ?_
      rintro _ k₄ ⟨rfl, h₄, hg₄, hbytes, habove⟩
      rw [hlen] at hbytes habove
      refine of_true (of_pure ⟨fun top' sp' hr => ?_, by simp⟩)
      cases hr
      exact ⟨hall, .of_block hg₄ hall hstrings rfl hbytes habove⟩
    · refine call (copyoutAt_guard h₃ hg₃ (by omega) (by omega) (by omega)) (fun _ => id) ?_
      rintro _ k₄ rfl
      exact of_false (of_pure ⟨by simp, fun _ hc => absurd hc hall⟩)
  · exact of_pure ⟨by simp, fun _ hc => by omega⟩

theorem CStr.short_of_total (htotal : argTotal argv ≤ 8192) :
    ∀ a ∈ argv, a.bytes.length + 4 ≤ 0x2000000 := by
  intro a ha
  have hle : a.padded ≤ stackNeed argv := le_sum_of_mem (mem_map_of_mem ha)
  have hpad := a.lt_padded
  unfold argTotal at htotal
  omega

/-- Freeing the old address space does not touch the new stack. -/
theorem Installed.passed {s s' : Task} {esp : Word} (h : Installed L s d sz esp own k s')
    (hp : Passed k.mem d esp sz argv) : Passed s'.kmem.mem s'.pgdir s'.esp s'.sz argv := by
  obtain ⟨own', hloc, -⟩ := h.freed
  have hdraft := h.draft
  have hview := hloc.view hdraft.owns (.inl hdraft.curDir) hdraft.dir hdraft.ne.symm
  rw [h.pgdir, h.size, h.esp]
  refine hp.congr hview fun a hlo hhi => ?_
  have hframe := hdraft.frame hhi h.below
  unfold byteAt pageAt
  rw [hview, hloc.mem]
  rw [hframe]
  rintro (hq | hq | ⟨i, hq⟩ | ⟨x, hq⟩)
  · rw [hq, hdraft.curDir] at hframe
    cases hframe
  · cases hq
  · cases hq
  · exact hdraft.ne.symm (Owner.frame.inj hq).1

/-- **The arguments of a program.**  If they fit in the stack page and `exec` succeeds, the
program finds them; if they do not and need at most two pages, `exec` returns -1. -/
theorem execFile_args {s : Task} (h : Owns L own s.kmem) (hc : own s.pgdir = .dir)
    (hk : Kern L s.kmem.mem s.pgdir) (hlock : s.locked = false) (path : CStr) (file : Option File)
    (hargc : argv.length < MAXARG) :
    (argTotal argv ≤ 4096 → ∀ s', execFile L path file argv s = .ok (true, s') →
      Passed s'.kmem.mem s'.pgdir s'.esp s'.sz argv) ∧
    (4096 < argTotal argv → argTotal argv ≤ 8192 →
      ∃ s', execFile L path file argv s = .ok (false, s')) := by
  have hmeets := fun htotal : argTotal argv ≤ 8192 =>
    execFile_meets (T := fun d r k => ∀ sz esp, r = some (sz, esp) → argTotal argv ≤ 4096 ∧
      Passed k.mem d esp sz argv) path file h hc hk hlock fun hdraft hsz =>
      mono (both (pushUstack_leaves hdraft hsz (CStr.short_of_total htotal))
        (pushUstack_stack hdraft hsz hargc htotal)) (fun _ _ hr => ⟨hr.1, hr.2.1⟩) fun _ => And.left
  constructor
  · intro hfit s' hrun
    rcases ok (hmeets (by omega)) hrun with ⟨hok, -⟩ | ⟨-, d, sz, esp, own₁, k₁, ht, hinst⟩
    · cases hok
    · exact hinst.passed (ht sz esp rfl).2
  · intro hbig htotal
    obtain ⟨ok, s', hrun, ⟨rfl, -⟩ | ⟨-, d, sz, esp, own₁, k₁, ht, -⟩⟩ := returns (hmeets htotal)
    · exact ⟨s', hrun⟩
    · have hfit := (ht sz esp rfl).1
      omega

end

/-- A program without segments: a header and nothing else. -/
def bareFile : File where
  size := 52
  data i := [0x7F, 0x45, 0x4C, 0x46].getD i 0

/-- With pages enough, `exec` of such a program succeeds. -/
theorem execFile_bare {L : Link} {own : Word → Owner} {s : Task} {argv : List CStr} (path : CStr)
    (h : Owns L own s.kmem) (hc : own s.pgdir = .dir) (hk : Kern L s.kmem.mem s.pgdir)
    (hlock : s.locked = false) (hargc : argv.length < MAXARG) (hfit : argTotal argv ≤ 4096)
    (hfree : 4000 < freePages own) :
    Meets (execFile L path (some bareFile) argv) s (fun ok _ => ok = true) fun _ => False := by
  refine of_bind (of_modify (of_bind (of_bind (of_modify (of_pure
    (call (ilock_meets rfl hlock) (fun _ => id) ?_))))))
  rintro _ _ rfl
  refine of_neg (fun hc => hc rfl) (call (onMem_meets (setupkvm_meets h)) (fun _ => id) ?_)
  rintro d _ ⟨k₁, rfl, ⟨-, -, -, hfew⟩ | ⟨hd, own₁, h₁, hd₁, hloc₁, hkern, huser, -⟩⟩
  · omega
  refine of_neg (h.ne_zero hd nofun) (of_bind (of_get ?_))
  have hdraft := Draft.start h hd hc hk h₁ hd₁ hloc₁ hkern huser
  have hcount := hloc₁.census h hd h₁ hd₁
  have htables := tablePages_le k₁.mem d
  have hnone : userPages k₁.mem d = 0 := userPages_eq (Nat.zero_le _) fun x hx => by
    rw [huser x hx]
    exact iff_of_false not_present_zero (Nat.not_lt_zero _)
  have hseg : Meets (loadSegments L s.pgdir d bareFile.image 0 0 0) k₁ (fun r k' => r = some 0 ∧ k' = k₁)
      fun _ => False := of_pure ⟨rfl, rfl⟩
  refine call (onMem_meets hseg) (fun _ => id) ?_
  rintro _ _ ⟨k₂, rfl, rfl, rfl⟩
  refine call (iunlockput_meets rfl (Nat.le_add_left 1 _)) (fun _ => id) ?_
  rintro _ _ rfl
  refine of_bind (of_modify ?_)
  have hpush := both (pushUstack_leaves hdraft (Nat.zero_le _) (CStr.short_of_total (by omega)))
    (pushUstack_stack hdraft (Nat.zero_le _) hargc (by omega))
  refine call (onMem_meets (mono hpush (fun _ _ => id) fun _ => And.left)) (fun _ => id) ?_
  rintro (_ | ⟨sz, esp⟩) _ ⟨k₃, rfl, ⟨own₂, h₂, -, -, hr⟩, -, hshort⟩
  · have hle := hshort rfl hfit (by decide)
    have hz : (0 : Word).toNat = 0 := rfl
    omega
  · obtain ⟨-, hdraft₂⟩ := hr sz rfl
    refine of_bind (of_modify (call (onMem_meets (freevm_meets h₂ hdraft₂.curDir)) (fun _ => id) ?_))
    exact fun _ _ _ => of_pure rfl

/-- The first process runs it with two arguments. -/
theorem execFile_args_bare : ∃ own s s', Owns smallLink own s.kmem ∧ own s.pgdir = .dir ∧
    Kern smallLink s.kmem.mem s.pgdir ∧ s.locked = false ∧
    execFile smallLink ⟨[0x2F], by decide, by decide⟩ (some bareFile)
      [⟨[0x6C, 0x73], by decide, by decide⟩, ⟨[], by decide, by decide⟩] s = .ok (true, s') ∧
    Passed s'.kmem.mem s'.pgdir s'.esp s'.sz
      [⟨[0x6C, 0x73], by decide, by decide⟩, ⟨[], by decide, by decide⟩] := by
  obtain ⟨own, k, p, h, hc, -, -, hfree, hk⟩ := exists_sized
  have hargc : [(⟨[0x6C, 0x73], by decide, by decide⟩ : CStr), ⟨[], by decide, by decide⟩].length < MAXARG := by
    decide
  obtain ⟨ok, s', hrun, rfl⟩ := returns (execFile_bare (s := ⟨k, p.pgdir, p.sz, [], 0, 0, 0, 0, false⟩)
    ⟨[0x2F], by decide, by decide⟩ h hc hk rfl hargc (by decide) (by omega))
  exact ⟨own, _, s', h, hc, hk, rfl, hrun, (execFile_args h hc hk rfl _ _ hargc).1 (by decide) s' hrun⟩

end Xv6.Vm
