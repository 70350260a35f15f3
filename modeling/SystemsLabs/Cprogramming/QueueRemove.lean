import SystemsLabs.Cprogramming.QueueRefine

/-! @lab cprogramming | file:queue.c | structure:bounded copy | main result:when the copy stays inside the buffer

    `q_remove_head` copies up to `bufsize - 1` characters of the removed string and terminates them.
    The subtraction is one on `size_t`: for `bufsize` 0 the bound is `2^64 - 1`, so the whole string and
    its terminator go to a buffer without a single byte. From `bufsize` 1 on the comment above the
    function is right for every string. What is written does not depend on what the buffer held, so
    a byte that keeps its value whatever it was is a byte that was not written. -/

namespace Labs.Queue
open Schemes

/-- The queue at `q` has a first element, which holds `s`; nothing is asked of the others. -/
structure Front (h : Mem) (q : Ptr) (s : CString) : Prop where
  here : q ≠ NULL
  first : ∃ Q v nxt, h q = some (.queue Q) ∧ Q.head ≠ NULL ∧ h Q.head = some (.ele ⟨v, nxt⟩) ∧
    v ≠ NULL ∧ h v = some (.chars (s.bytes ++ [0]))

/-- From `sp` to `sp'` the buffer of `bufsize` bytes received as much of `s` as it can hold. -/
structure Truncated (s : CString) (bufsize : BitVec 64) (sp sp' : Buffer) : Prop where
  inside : ∀ i, bufsize.toNat ≤ i → sp' i = sp i
  copy : 1 ≤ bufsize.toNat → ∀ i < min s.bytes.length (bufsize.toNat - 1), s.bytes[i]? = some (sp' i)
  nul : 1 ≤ bufsize.toNat → sp' (min s.bytes.length (bufsize.toNat - 1)) = 0
  rest : 1 ≤ bufsize.toNat → ∀ i, min s.bytes.length (bufsize.toNat - 1) < i → sp' i = sp i

section Remove
variable {h : Mem} {q : Ptr} {Q : QueueT} {s : CString} {bufsize : BitVec 64} {sp : Buffer}

theorem Rep.front {n : Node} {ns : List Node} (hr : Rep h q Q (n :: ns)) : Front h q n.str := by
  obtain ⟨hhead, nxt, he, -⟩ := chain_head hr.chain
  obtain ⟨haddr, hvalue⟩ := hr.nonnull n (by simp)
  have hn : h Q.head = some (.ele ⟨n.value, nxt⟩) := hhead.symm ▸ he
  exact ⟨hr.here, Q, n.value, nxt, hr.queue, hhead ▸ haddr, hn, hvalue, hr.strings n (by simp)⟩

/-- Every removal with a buffer ends, and this is what the buffer holds. -/
theorem Front.remove (hf : Front h q s) (bufsize : BitVec 64) (sp : Buffer) :
    ∃ h', Converges (fun fuel => q_remove_head fuel h q (some sp) bufsize)
      (h', true, some (overlay sp (s.bytes.take (bufsize - 1).toNat ++ [0]))) := by
  obtain ⟨hq, Q, v, nxt, hQ, hnull, he, hv, hs⟩ := hf
  exact ⟨_, s.bytes.length + 1, fun fuel hfuel =>
    remove_head_spec hq hQ hnull he hv hs hfuel (some sp) bufsize⟩

theorem overlay_lt (sp : Buffer) {bytes : List UInt8} {i : ℕ} (hi : i < bytes.length) :
    bytes[i]? = some (overlay sp bytes i) := by
  rw [overlay, List.getD_eq_getElem?_getD, List.getElem?_eq_getElem hi, Option.getD_some]

theorem overlay_ge {bytes : List UInt8} {i : ℕ} (hi : bytes.length ≤ i) : overlay sp bytes i = sp i := by
  rw [overlay, List.getD_eq_getElem?_getD, List.getElem?_eq_none hi, Option.getD_none]

theorem size_pred (hpos : bufsize ≠ 0) : (bufsize - 1).toNat = bufsize.toNat - 1 := by
  bv_omega

/-- The copy with the bound read as a number. -/
theorem truncated_take (s : CString) (sp : Buffer) (hpos : bufsize ≠ 0) :
    Truncated s bufsize sp (overlay sp (s.bytes.take (bufsize - 1).toNat ++ [0])) := by
  have hone : 1 ≤ bufsize.toNat := by bv_omega
  rw [size_pred hpos]
  have hlen : (s.bytes.take (bufsize.toNat - 1)).length = min s.bytes.length (bufsize.toNat - 1) := by
    rw [List.length_take, Nat.min_comm]
  refine ⟨fun i hi => overlay_ge ?_, fun _ i hi => ?_, fun _ => ?_, fun _ i hi => overlay_ge ?_⟩
  · rw [List.length_append, List.length_singleton, hlen]
    omega
  · have hin : i < (s.bytes.take (bufsize.toNat - 1) ++ [0]).length := by
      rw [List.length_append, hlen]
      omega
    have hcopy := overlay_lt sp hin
    rw [← hcopy, List.getElem?_append_left (by omega), List.getElem?_take_of_lt (by omega)]
  · have hin : min s.bytes.length (bufsize.toNat - 1) < (s.bytes.take (bufsize.toNat - 1) ++ [0]).length := by
      rw [List.length_append, List.length_singleton, hlen]
      omega
    have hend := overlay_lt sp hin
    rw [← hlen, List.getElem?_concat_length] at hend
    rw [← hlen]
    exact (Option.some.inj hend).symm
  · rw [List.length_append, List.length_singleton, hlen]
    omega

/-- Whatever the bound, the first byte is written. -/
theorem overlay_first (s : CString) (n : ℕ) :
    ∃ c, ∀ sp : Buffer, overlay sp (s.bytes.take n ++ [0]) 0 = c := by
  cases hb : s.bytes.take n with
  | nil => exact ⟨0, fun sp => rfl⟩
  | cons c rest => exact ⟨c, fun sp => rfl⟩

/-- For `bufsize` 0 some buffer is changed, at its first byte. -/
theorem Front.overrun (hf : Front h q s) :
    ∃ sp sp' h', Converges (fun fuel => q_remove_head fuel h q (some sp) 0) (h', true, some sp') ∧
      sp' 0 ≠ sp 0 := by
  obtain ⟨c, hc⟩ := overlay_first s ((0 : BitVec 64) - 1).toNat
  have hother : ∃ d, c ≠ d := by
    rcases eq_or_ne c 0 with rfl | hne
    · exact ⟨1, by decide⟩
    · exact ⟨0, hne⟩
  obtain ⟨d, hd⟩ := hother
  obtain ⟨h', hrun⟩ := hf.remove 0 fun _ => d
  refine ⟨_, _, h', hrun, ?_⟩
  rw [hc]
  exact hd

/-- The buffer of every caller receives the truncated string and nothing outside it, unless the
    caller says that there is no buffer. -/
theorem remove_head_truncates (hf : Front h q s) (bufsize : BitVec 64) :
    (∀ sp, ∃ h' sp', Converges (fun fuel => q_remove_head fuel h q (some sp) bufsize)
      (h', true, some sp') ∧ Truncated s bufsize sp sp') ↔ bufsize ≠ 0 := by
  constructor
  · rintro hall rfl
    obtain ⟨sp, sp₁, h₁, hrun₁, hne⟩ := hf.overrun
    obtain ⟨h₂, sp₂, hrun₂, hok⟩ := hall sp
    have hsame : some sp₁ = some sp₂ := congrArg (fun r => r.2.2) (hrun₁.unique hrun₂)
    rw [Option.some.inj hsame, hok.inside 0 (Nat.le_refl 0)] at hne
    exact hne rfl
  · intro hpos sp
    obtain ⟨h', hrun⟩ := hf.remove bufsize sp
    exact ⟨h', _, hrun, truncated_take s sp hpos⟩

end Remove

/-- One element at 32, with `"a"` at 48. -/
def single : Mem :=
  ((Heap.put (fun _ => none) 16 (.queue ⟨32, 32, 1⟩)).put 32 (.ele ⟨48, NULL⟩)).put 48
    (.chars (strA.bytes ++ [0]))

theorem single_front : Front single 16 strA :=
  ⟨by decide, ⟨32, 32, 1⟩, 48, NULL, rfl, by decide, rfl, by decide, rfl⟩

theorem remove_head_truncates_single :
    ∃ h' sp', Converges (fun fuel => q_remove_head fuel single 16 (some fun _ => 7) 1) (h', true, some sp') ∧
      Truncated strA 1 (fun _ => 7) sp' :=
  (remove_head_truncates single_front 1).mpr (by decide) fun _ => 7

/-- A buffer of 0 bytes receives two. -/
theorem remove_head_overruns : Front single 16 strA ∧
    ∃ h' sp', Converges (fun fuel => q_remove_head fuel single 16 (some fun _ => 7) 0) (h', true, some sp') ∧
      sp' 0 = 97 ∧ sp' 1 = 0 ∧ ¬ Truncated strA 0 (fun _ => 7) sp' := by
  obtain ⟨h', hrun⟩ := single_front.remove 0 fun _ => 7
  refine ⟨single_front, h', _, hrun, by decide, by decide, fun hok => ?_⟩
  have hkept := hok.inside 0 (Nat.le_refl 0)
  revert hkept
  decide

end Labs.Queue
