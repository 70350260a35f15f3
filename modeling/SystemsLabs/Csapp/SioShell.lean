import SystemsLabs.Csapp.SioPrintf
import SystemsLabs.Schemes.Cuts

/-! @lab csapp | file:shelllab/csapp.c (sio_vdprintf) | structure:fall-through of a case |
    main result:when both versions print the same

    The shell's version prints what the proxy's does, for strings other than `NULL`, as long as no
    `%l` conversion is followed, two characters later, by the end of the format or by a letter that is
    a conversion itself. Where it is, the number is lost or the format is read past its end. -/

namespace Labs.Sio
open Schemes
open Labs.Http.Relay (Client rio_writen)
variable {n : ℕ} {fmt : Buffer n} {buf : Buffer 128} {f pre : List UInt8} {args : List VarArg}
  {text : List UInt8}

/-- No argument is a null pointer. -/
def NoNull (args : List VarArg) : Prop := ∀ a ∈ args, ∀ bytes, a ≠ .ptr 0 bytes

/-- Behind every `%l` conversion there are two characters, and then no conversion letter. -/
def NoFall (fmt : Buffer n) : Prop :=
  ∀ p c, fmt.load p = .ok 37 → fmt.load (p + 1) = .ok 108 → fmt.load (p + 2) = .ok c →
    intType c ≠ none → ∃ d, fmt.load (p + 5) = .ok d ∧ intType d = none

/-! ### The two switches -/

theorem sized_none {g : Found} {d : UInt8} (hload : fmt.load (g.pos + 2) = .ok d)
    (hd : intType d = none) : sized fmt g = .ok g := by
  rw [sized, hload, ok_bind, hd]

theorem sized_some {g : Found} {c : UInt8} {t : ConvertType} {v : BitVec 64}
    (hload : fmt.load (g.pos + 2) = .ok c) (hc : intType c = some t)
    (hargs : g.argp = .long v :: args) :
    sized fmt g = .ok { g with pos := g.pos + 3, argp := args, convert := some (t, v) } := by
  rw [sized, hload, ok_bind, hc]
  simp only [hargs, va_long, ok_bind]

/-- Looking for a size twice is looking once, if nothing is found behind the first. -/
theorem sized_twice (hfall : NoFall fmt) {g : Found} (h37 : fmt.load g.pos = .ok 37)
    (hl : fmt.load (g.pos + 1) = .ok 108) :
    (sized fmt g >>= fun g => sized fmt g) = sized fmt g := by
  cases hthird : fmt.load (g.pos + 2) with
  | error e =>
    rw [sized, hthird]
    rfl
  | ok c =>
    cases hc : intType c with
    | none => rw [sized_none hthird hc, ok_bind, sized_none hthird hc]
    | some t =>
      obtain ⟨d, hd, hnone⟩ := hfall g.pos c h37 hl hthird (by simp [hc])
      rw [sized, hthird, ok_bind, hc]
      cases hargs : va_long g.argp with
      | error e => rfl
      | ok r =>
        obtain ⟨v, argp⟩ := r
        simp only [ok_bind]
        exact sized_none hd hnone

theorem formatSwitch_eq (hfall : NoFall fmt) {g : Found} (hnull : NoNull g.argp)
    (h37 : fmt.load g.pos = .ok 37) : Shell.formatSwitch fmt g = Proxy.formatSwitch fmt g := by
  rw [Shell.formatSwitch, Proxy.formatSwitch, directive, directive]
  cases hload : fmt.load (g.pos + 1) with
  | error e => rfl
  | ok c =>
    simp only [ok_bind]
    split_ifs with h₁ h₂ h₃ h₄ hl
    · rfl
    · cases hptr : va_ptr g.argp with
      | error e => rfl
      | ok r =>
        obtain ⟨p, bytes, argp⟩ := r
        have hp : ¬ p = 0 := by
          rintro rfl
          cases hargs : g.argp with
          | nil => simp [hargs, va_ptr] at hptr
          | cons a rest =>
            rw [hargs] at hptr hnull
            cases a <;> simp only [va_ptr, Except.ok.injEq, Prod.mk.injEq, reduceCtorEq] at hptr
            exact hnull _ List.mem_cons_self _ (by rw [hptr.1])
        simp only [ok_bind, if_neg hp]
    · rfl
    · rfl
    · cases intType c with
      | some t => rfl
      | none => exact sized_twice hfall h37 (hl ▸ hload)
    · rfl
    · rfl

/-! ### The runs -/

theorem va_word_args {v : BitVec 32} {argp : List VarArg}
    (h : va_word args = .ok (v, argp)) : argp <:+ args := by
  unfold va_word at h
  split at h
  · cases h
    exact List.suffix_cons _ _
  · cases h

theorem va_long_args {v : BitVec 64} {argp : List VarArg}
    (h : va_long args = .ok (v, argp)) : argp <:+ args := by
  unfold va_long at h
  split at h
  · cases h
    exact List.suffix_cons _ _
  · cases h

theorem va_ptr_args {p : BitVec 64} {bytes : List UInt8} {argp : List VarArg}
    (h : va_ptr args = .ok (p, bytes, argp)) : argp <:+ args := by
  unfold va_ptr at h
  split at h
  · cases h
    exact List.suffix_cons _ _
  · cases h

theorem sized_args {g g' : Found} (h : sized fmt g = .ok g') : g'.argp <:+ g.argp := by
  obtain ⟨c, -, h⟩ := bind_ok h
  cases hc : intType c with
  | none =>
    rw [hc] at h
    cases h
    exact List.suffix_refl _
  | some t =>
    rw [hc] at h
    obtain ⟨⟨v, argp⟩, harg, h⟩ := bind_ok h
    cases h
    exact va_long_args harg

/-- Arguments are taken from the front. -/
theorem formatSwitch_args {g g' : Found} (h : Proxy.formatSwitch fmt g = .ok g') :
    g'.argp <:+ g.argp := by
  obtain ⟨c, -, h⟩ := bind_ok h
  split_ifs at h with h₁ h₂ h₃ h₄ hl hz
  · obtain ⟨⟨v, argp⟩, harg, h⟩ := bind_ok h
    cases h
    exact va_word_args harg
  · obtain ⟨⟨p, bytes, argp⟩, harg, h⟩ := bind_ok h
    simp only at h
    split_ifs at h <;> cases h <;> exact va_ptr_args harg
  · cases h
    exact List.suffix_refl _
  · obtain ⟨⟨p, bytes, argp⟩, harg, h⟩ := bind_ok h
    simp only at h
    split_ifs at h <;> cases h <;> exact va_ptr_args harg
  all_goals
    cases hc : intType c with
    | some t =>
      rw [hc] at h
      obtain ⟨⟨v, argp⟩, harg, h⟩ := bind_ok h
      cases h
      exact va_word_args harg
    | none =>
      rw [hc] at h
      first
        | exact sized_args h
        | cases h
          exact List.suffix_refl _

theorem handleFormat_args {k pos pos' : ℕ} {piece : List UInt8} {args' : List VarArg}
    (h : handleFormat fmt (Proxy.formatSwitch fmt) k buf pos args = .ok (pos', piece, args')) :
    args' <:+ args := by
  obtain ⟨g, hg, h⟩ := bind_ok h
  obtain ⟨g', hg', h⟩ := bind_ok h
  have hconv : g'.argp = g.argp := by
    unfold Found.converted at hg'
    split at hg'
    · obtain ⟨t, -, hg'⟩ := bind_ok hg'
      cases hg'
      rfl
    · cases hg'
      rfl
  have hout : args' = g'.argp := by
    unfold Found.output at h
    split at h
    · cases h
      rfl
    · obtain ⟨t, -, h⟩ := bind_ok h
      cases h
      rfl
  rw [hout, hconv]
  obtain ⟨c, -, hg⟩ := bind_ok hg
  split at hg
  · exact formatSwitch_args hg
  · cases hg
    exact List.suffix_refl _

/-- The text of a number does not depend on what the buffer held. -/
theorem converted_buffer (fuel : ℕ) (buf buf' : Buffer 128) (t : ConvertType) (v : BitVec 64) :
    converted fuel buf t v = converted fuel buf' t v := by
  have hnone : Alike 0 buf buf' := fun p hp => absurd hp (Nat.not_lt_zero p)
  have hrun : ∀ {x x' : Except Stop (ℕ × Buffer 128)}, AlikeRuns 0 x x' →
      (x >>= fun r => Except.ok (r.2.bytes.take r.1)) =
        x' >>= fun r => Except.ok (r.2.bytes.take r.1) := by
    rintro x x' (⟨e, rfl, rfl⟩ | ⟨len, r, r', rfl, rfl, hlen⟩)
    · rfl
    · have htake := hlen.take
      rw [Nat.zero_add] at htake
      simp only [ok_bind, htake]
  cases t with
  | d => exact hrun (intmax_alike (by decide) fuel v 10 hnone)
  | u => exact hrun (uintmax_alike (by decide) fuel v 10 hnone)
  | x => exact hrun (uintmax_alike (by decide) fuel v 16 hnone)
  | o => exact hrun (uintmax_alike (by decide) fuel v 8 hnone)
  | p =>
    obtain ⟨r, hr, hbytes⟩ := buf.memcpy_ok (p := 0) (s := str "0x" ++ [0]) (by decide)
    obtain ⟨r', hr', hbytes'⟩ := buf'.memcpy_ok (p := 0) (s := str "0x" ++ [0]) (by decide)
    have hprefix : Alike 2 r r' := by
      intro p hp
      have hget : ∀ q : Buffer 128, q.bytes.take 3 = str "0x" ++ [0] →
          q.bytes[p]? = (str "0x" ++ [0])[p]? := fun q hq => by
        rw [← hq, List.getElem?_take_of_lt (by omega)]
      rw [Buffer.load, Buffer.load, hget r hbytes, hget r' hbytes']
    simp only [converted, hr, hr', ok_bind]
    rcases uintmax_alike (by decide) fuel v 16 hprefix with ⟨e, he, he'⟩ | ⟨len, q, q', hq, hq', hlen⟩
    · rw [he, he']
    · have htake := hlen.take
      rw [Nat.add_comm] at htake
      simp only [hq, hq', ok_bind, htake]

theorem handleFormat_eq (hfall : NoFall fmt) (hnull : NoNull args) (buf' : Buffer 128) (k pos : ℕ) :
    handleFormat fmt (Shell.formatSwitch fmt) k buf pos args =
      handleFormat fmt (Proxy.formatSwitch fmt) k buf' pos args := by
  have hformat : formatAt fmt (Shell.formatSwitch fmt) pos args =
      formatAt fmt (Proxy.formatSwitch fmt) pos args := by
    rw [formatAt, formatAt]
    cases hload : fmt.load pos with
    | error e => rfl
    | ok c =>
      rw [ok_bind, ok_bind]
      split
      · rename_i hc
        exact formatSwitch_eq hfall hnull (hc ▸ hload)
      · rfl
  have hconverted : ∀ f : Found, f.converted k buf = f.converted k buf' := fun f => by
    unfold Found.converted
    split
    · rw [converted_buffer k buf buf']
    · rfl
  simp only [handleFormat, hformat, hconverted]

/-- The two loops do the same, whatever comes of it and whatever their buffers held. -/
theorem vdprintfLoop_eq (hfall : NoFall fmt) (buf' : Buffer 128) : ∀ (fuel pos : ℕ)
    {args : List VarArg} (out : Client) (num : ℕ), NoNull args →
    vdprintfLoop fmt (Shell.formatSwitch fmt) buf fuel pos args out num =
      vdprintfLoop fmt (Proxy.formatSwitch fmt) buf' fuel pos args out num
  | 0, _, _, _, _, _ => rfl
  | k + 1, pos, args, out, num, hnull => by
      rw [vdprintfLoop, vdprintfLoop, handleFormat_eq hfall hnull buf']
      cases fmt.load pos with
      | error e => rfl
      | ok c =>
        simp only [ok_bind]
        split
        · rfl
        · cases hhandle : handleFormat fmt (Proxy.formatSwitch fmt) k buf' pos args with
          | error e => rfl
          | ok r =>
            obtain ⟨pos', piece, args'⟩ := r
            have hnull' : NoNull args' := fun a ha =>
              hnull a ((handleFormat_args hhandle).subset ha)
            have hrest : ∀ out num, vdprintfLoop fmt (Shell.formatSwitch fmt) buf k pos' args' out num =
                vdprintfLoop fmt (Proxy.formatSwitch fmt) buf' k pos' args' out num :=
              fun out num => vdprintfLoop_eq hfall buf' k pos' out num hnull'
            simp only [ok_bind, hrest]

/-- The shell's `sio_vdprintf` prints the text of the format, whatever its buffer held. -/
theorem shell_formats (h : Formats f args text) (hat : fmt.At [] f) (hnull : NoNull args)
    (hfall : NoFall fmt) (buf : Buffer 128) (out : Client) :
    ∃ res out', Sent out text res out' ∧
      Converges (fun fuel => Shell.sio_vdprintf buf fuel out fmt args)
        (if res then (text.length : ℤ) else -1, out') := by
  obtain ⟨res, out', hsent, hrun⟩ := h.prints buf _ (Nat.lt_succ_self _) hat out 0
  rw [Nat.zero_add] at hrun
  simp only [← @vdprintfLoop_eq _ fmt buf hfall buf _ _ _ _ _ hnull] at hrun
  exact ⟨res, out', hsent, hrun⟩

section Long
variable {a rest : List UInt8} {c : UInt8} {t : ConvertType} {v : BitVec 64}

theorem Formats.before (ha : 37 ∉ a) (h : Formats f args text) :
    Formats (a ++ f) args (a ++ text) := by
  induction a with
  | nil => exact h
  | cons d a ih =>
    rw [List.mem_cons, not_or] at ha
    exact .char d (Ne.symm ha.1) (ih ha.2)

theorem formats_long (ha : 37 ∉ a) (hc : intType c = some t) (hrest : 37 ∉ rest) :
    Formats (a ++ 37 :: 108 :: c :: rest) [.long v] (a ++ (t.text v ++ rest)) := by
  have hend : Formats rest [] rest := by simpa using Formats.before hrest (.done [])
  exact Formats.before ha (.spec (.size 108 c t v (Or.inl rfl) hc) hend)

/-- The bytes of a format with one `%l` conversion. -/
theorem at_long (hbytes : fmt.bytes = a ++ 37 :: 108 :: c :: rest ++ [0])
    (hnul : 0 ∉ a ++ c :: rest) : fmt.At a (37 :: 108 :: c :: rest) :=
  ⟨⟨[], hbytes⟩, by simp at hnul ⊢; tauto⟩

/-- A second number is looked for behind the first. -/
theorem formatSwitch_long (hat : fmt.At a (37 :: 108 :: c :: rest)) (hc : intType c = some t) :
    Shell.formatSwitch fmt ⟨a.length, [.long v], none, none⟩ =
      sized fmt ⟨a.length + 3, [], none, some (t, v)⟩ := by
  have hsecond : fmt.load (a.length + 1) = .ok 108 := by
    simpa using hat.load_getD (k := 1) (by simp)
  have hthird : fmt.load (a.length + 2) = .ok c := by
    simpa using hat.load_getD (k := 2) (by simp)
  have hfirst : sized fmt ⟨a.length, [.long v], none, none⟩ =
      .ok ⟨a.length + 3, [], none, some (t, v)⟩ := sized_some hthird hc rfl
  rw [Shell.formatSwitch, directive, hsecond, ok_bind]
  exact congrArg (· >>= sized fmt) hfirst

theorem long_fault (hat : fmt.At a (37 :: 108 :: c :: rest)) (hn : n = a.length + 3 + rest.length + 1)
    (hc : intType c = some t) (hbad : ¬ (2 ≤ rest.length ∧ intType (rest.getD 2 0) = none)) :
    ∃ e, Shell.formatSwitch fmt ⟨a.length, [.long v], none, none⟩ = .error e := by
  rw [formatSwitch_long hat hc, sized]
  by_cases hlen : 2 ≤ rest.length
  · have hload : fmt.load (a.length + 3 + 2) = .ok (rest.getD 2 0) := by
      simpa using hat.load_getD (k := 5) (by simp only [List.length_cons]; omega)
    obtain ⟨t', ht'⟩ := Option.ne_none_iff_exists'.mp fun h => hbad ⟨hlen, h⟩
    rw [hload, ok_bind, ht']
    exact ⟨_, rfl⟩
  · have hload : fmt.load (a.length + 3 + 2) = .error .fault := by
      rw [Buffer.load, List.getElem?_eq_none (by rw [fmt.size]; omega)]
    rw [hload]
    exact ⟨_, rfl⟩

theorem long_only (hbytes : fmt.bytes = a ++ 37 :: 108 :: c :: rest ++ [0]) (ha : 37 ∉ a)
    (hrest : 37 ∉ rest) (hc : intType c = some t) {p : ℕ} (h : fmt.load p = .ok 37) :
    p = a.length := by
  rw [Buffer.load_eq_ok, hbytes] at h
  rcases Nat.lt_trichotomy p a.length with hlt | heq | hgt
  · rw [List.append_assoc, List.getElem?_append_left hlt] at h
    exact absurd (List.mem_of_getElem? h) ha
  · exact heq
  · obtain ⟨k, rfl⟩ : ∃ k, p = a.length + (k + 1) := ⟨p - a.length - 1, by omega⟩
    rw [List.append_assoc, List.getElem?_append_right (by omega), Nat.add_sub_cancel_left,
      List.cons_append, List.getElem?_cons_succ] at h
    have hmem := List.mem_of_getElem? h
    have hletter : ¬ 37 = c := by
      rcases intType_cases hc with rfl | rfl | rfl | rfl | rfl <;> decide
    simp [hrest, hletter] at hmem

theorem noFall_long (hbytes : fmt.bytes = a ++ 37 :: 108 :: c :: rest ++ [0])
    (hat : fmt.At a (37 :: 108 :: c :: rest)) (ha : 37 ∉ a) (hrest : 37 ∉ rest)
    (hc : intType c = some t) (hlen : 2 ≤ rest.length) (hnone : intType (rest.getD 2 0) = none) :
    NoFall fmt := by
  intro p d h37 _ _ _
  obtain rfl := long_only hbytes ha hrest hc h37
  exact ⟨_, by simpa using hat.load_getD (k := 5) (by simp only [List.length_cons]; omega), hnone⟩

/-- Where the `switch` fails the loop does not get further. -/
theorem vdprintfLoop_stuck {switch : Found → Except Stop Found} {pos : ℕ}
    (hload : fmt.load pos = .ok 37) (hswitch : ∃ e, switch ⟨pos, args, none, none⟩ = .error e) :
    ∀ (fuel : ℕ) (out : Client) (num : ℕ) (r : ℤ × Client),
      vdprintfLoop fmt switch buf fuel pos args out num ≠ .ok r
  | 0, _, _, _, h => by cases h
  | k + 1, out, num, r, h => by
      obtain ⟨e, he⟩ := hswitch
      have hhandle : handleFormat fmt switch k buf pos args = .error e := by
        rw [handleFormat, formatAt, hload, ok_bind, if_pos rfl, he]
        rfl
      rw [vdprintfLoop, hload, ok_bind, if_neg (by decide), hhandle] at h
      cases h

/-- Nor does it when there is other text before, and the writes do not fail. -/
theorem vdprintfLoop_stuck_after {switch : Found → Except Stop Found} (ha : 37 ∉ a)
    (hat : fmt.At [] (a ++ 37 :: f)) {out : Client} (hno : .error ∉ out.answers)
    (hstuck : ∀ (fuel : ℕ) (out : Client) (num : ℕ) (r : ℤ × Client),
      vdprintfLoop fmt switch buf fuel a.length args out num ≠ .ok r) {r : ℤ × Client} :
    ¬ Converges (fun fuel => vdprintfLoop fmt switch buf fuel 0 args out 0) r := by
  rintro hrun
  cases a with
  | nil =>
    obtain ⟨fuel, -, hok⟩ := hrun.above 0
    exact hstuck fuel out 0 r hok
  | cons d a =>
    rw [List.mem_cons, not_or] at ha
    have hfirst : fmt.At [] (d :: (a ++ 37 :: f)) := hat
    have hd : ¬ d = 0 := fun h => hfirst.2 (by simp [h])
    have hplain : Converges (fun k => handleFormat fmt switch k buf 0 args)
        (_, d :: (a ++ 37 :: f).takeWhile (· ≠ 37), args) :=
      handleFormat_plain hfirst (fun h => absurd h.symm ha.1)
    rw [takeWhile_ne ha.2] at hplain
    obtain ⟨N, hN⟩ := hplain
    obtain ⟨fuel, hfuel, hok⟩ := hrun.above (N + 1)
    obtain ⟨k, rfl⟩ := Nat.exists_eq_add_of_le' (Nat.le_trans (Nat.le_add_left 1 N) hfuel)
    have hhandle : handleFormat fmt switch k buf 0 args = .ok ((d :: a).length, d :: a, args) :=
      hN k (Nat.le_of_succ_le_succ hfuel)
    have hwrite : (rio_writen out (d :: a)).1 = true :=
      ((rio_writen_sent out (d :: a)).unbroken hno).1
    rcases hsent : rio_writen out (d :: a) with ⟨res, out₁⟩
    rw [hsent] at hwrite
    subst hwrite
    have hload : fmt.load 0 = .ok d := hfirst.load
    rw [vdprintfLoop, hload, ok_bind, if_neg hd, hhandle, ok_bind] at hok
    simp only [List.length_cons, Nat.zero_lt_succ, gt_iff_lt, if_true, hsent] at hok
    exact hstuck k out₁ _ r hok

/-- A format with one `%l` conversion and no other is printed by the shell's version if and only if
    two characters come behind it, and then none that is a conversion letter. -/
theorem shell_long_iff (fmt : Buffer n) (hbytes : fmt.bytes = a ++ 37 :: 108 :: c :: rest ++ [0])
    (hnul : 0 ∉ a ++ c :: rest) (ha : 37 ∉ a) (hrest : 37 ∉ rest) (hc : intType c = some t)
    (buf : Buffer 128) (v : BitVec 64) (out : Client) (hno : .error ∉ out.answers) :
    (∃ ret out', Converges (fun fuel => Shell.sio_vdprintf buf fuel out fmt [.long v]) (ret, out') ∧
      ret = (a ++ (t.text v ++ rest)).length ∧
      out'.received = out.received ++ (a ++ (t.text v ++ rest))) ↔
    2 ≤ rest.length ∧ intType (rest.getD 2 0) = none := by
  have hat := at_long hbytes hnul
  have hn : n = a.length + 3 + rest.length + 1 := by
    rw [← fmt.size, hbytes]
    simp
    omega
  constructor
  · rintro ⟨ret, out', hrun, -⟩
    by_contra hbad
    have hstart : fmt.At [] (a ++ 37 :: 108 :: c :: rest) :=
      ⟨⟨[], by simpa using hbytes⟩, by simp at hnul ⊢; tauto⟩
    exact vdprintfLoop_stuck_after ha hstart hno
      (vdprintfLoop_stuck hat.load (long_fault hat hn hc hbad)) hrun
  · rintro ⟨hlen, hnone⟩
    have hstart : fmt.At [] (a ++ 37 :: 108 :: c :: rest) :=
      ⟨⟨[], by simpa using hbytes⟩, by simp at hnul ⊢; tauto⟩
    have hnull : NoNull [.long v] := fun b hb bytes => by
      obtain rfl := List.mem_singleton.mp hb
      exact VarArg.noConfusion
    obtain ⟨res, out', hsent, hrun⟩ := shell_formats (formats_long ha hc hrest) hstart hnull
      (noFall_long hbytes hat ha hrest hc hlen hnone) buf out
    obtain ⟨rfl, hrec, -⟩ := hsent.unbroken hno
    exact ⟨_, out', hrun, rfl, hrec⟩

/-- `%ld` at the end of a line is not printed: the format is read behind its NUL. -/
theorem shell_long_line : (∃ ret out',
    Converges (fun fuel => Shell.sio_vdprintf (Buffer.strncpy 128 []) fuel ⟨[], []⟩
      ⟨[] ++ 37 :: 108 :: 100 :: [10] ++ [0], rfl⟩ [.long 7]) (ret, out') ∧
      ret = ([] ++ (ConvertType.text .d 7 ++ [10])).length ∧
      out'.received = [] ++ ([] ++ (ConvertType.text .d 7 ++ [10]))) ↔
    2 ≤ [(10 : UInt8)].length ∧ intType ([(10 : UInt8)].getD 2 0) = none :=
  shell_long_iff (n := 5) ⟨[] ++ 37 :: 108 :: 100 :: [10] ++ [0], rfl⟩ rfl (by decide) (by decide)
    (by decide) rfl _ 7 ⟨[], []⟩ (by simp)

end Long

end Labs.Sio
