import SystemsLabs.Csapp.Sio

/-! @lab csapp | file:proxylab/csapp.c (sio_vdprintf) | structure:rendering of a format |
    main result:what is printed

    What a format prints for its arguments, as a relation (`Formats`), and that
    `sio_vdprintf` prints it: as a whole, and it returns the length; or up to the write that fails,
    and it returns -1. -/

namespace Labs.Sio
open Schemes
open Labs.Http.Relay (Client WriteEv rio_writen writeLoop)

/-! ### Writes -/

/-- A text goes out as a whole, and no write of it fails, or up to the first that does; `used` are the
    answers of the writes before. -/
inductive Sent (out : Client) (text : List UInt8) : Bool → Client → Prop
  | whole (used : List WriteEv) (out' : Client) (hrec : out'.received = out.received ++ text)
      (hans : out.answers = used ++ out'.answers) (hok : .error ∉ used) : Sent out text true out'
  | failed (sent : List UInt8) (used : List WriteEv) (out' : Client) (hpre : sent <+: text)
      (hlen : sent.length < text.length) (hrec : out'.received = out.received ++ sent)
      (hans : out.answers = used ++ .error :: out'.answers) (hok : .error ∉ used) :
      Sent out text false out'

section Writes
variable {out out₁ out₂ : Client} {a text : List UInt8} {res : Bool}

theorem Sent.after_sent {received : List UInt8} {answers : List WriteEv} {k : ℕ}
    (h : Sent ⟨received ++ text.take k, answers⟩ (text.drop k) res out₁) {ev : WriteEv}
    (hev : ev ≠ .error) : Sent ⟨received, ev :: answers⟩ text res out₁ := by
  have hsplit := List.take_append_drop k text
  cases h with
  | whole used _ hrec hans hok =>
    refine .whole (ev :: used) out₁ ?_ (congrArg (ev :: ·) hans) (by simp [hev.symm, hok])
    rw [hrec, List.append_assoc, hsplit]
  | failed sent used _ hpre hlen hrec hans hok =>
    refine .failed (text.take k ++ sent) (ev :: used) out₁ ?_ ?_ (by rw [hrec, List.append_assoc])
      (congrArg (ev :: ·) hans) (by simp [hev.symm, hok])
    · have hboth := (List.prefix_append_right_inj (text.take k)).mpr hpre
      rwa [hsplit] at hboth
    · have hsum := congrArg List.length hsplit
      rw [List.length_append] at hsum ⊢
      omega

theorem writeLoop_sent : ∀ (answers : List WriteEv) (received text : List UInt8),
    Sent ⟨received, answers⟩ text (writeLoop received answers text).1
      (writeLoop received answers text).2
  | answers, received, [] => by
      rw [writeLoop]
      exact .whole [] _ (List.append_nil _).symm rfl List.not_mem_nil
  | [], received, c :: cs => by
      rw [writeLoop]
      exact .whole [] _ rfl rfl List.not_mem_nil
  | .sent more :: answers, received, c :: cs => by
      rw [writeLoop]
      exact (writeLoop_sent answers _ ((c :: cs).drop (more + 1))).after_sent (by simp)
  | .eintr :: answers, received, c :: cs => by
      rw [writeLoop]
      have hrest := writeLoop_sent answers received (c :: cs)
      have hzero : Sent ⟨received ++ (c :: cs).take 0, answers⟩ ((c :: cs).drop 0)
          (writeLoop received answers (c :: cs)).1 (writeLoop received answers (c :: cs)).2 := by
        simpa only [List.take_zero, List.drop_zero, List.append_nil] using hrest
      exact hzero.after_sent (by simp)
  | .error :: answers, received, c :: cs => by
      rw [writeLoop]
      exact .failed [] [] _ List.nil_prefix (by simp) (List.append_nil _).symm rfl List.not_mem_nil

theorem rio_writen_sent (out : Client) (text : List UInt8) :
    Sent out text (rio_writen out text).1 (rio_writen out text).2 :=
  writeLoop_sent out.answers out.received text

theorem Sent.nil : Sent out [] true out := .whole [] out (List.append_nil _).symm rfl List.not_mem_nil

theorem Sent.append (h₁ : Sent out a true out₁) (h₂ : Sent out₁ text res out₂) :
    Sent out (a ++ text) res out₂ := by
  cases h₁ with
  | whole used₁ _ hrec₁ hans₁ hok₁ =>
    cases h₂ with
    | whole used _ hrec hans hok =>
      refine .whole (used₁ ++ used) out₂ (by rw [hrec, hrec₁, List.append_assoc]) ?_
        (by simp [hok₁, hok])
      rw [hans₁, hans, List.append_assoc]
    | failed sent used _ hpre hlen hrec hans hok =>
      refine .failed (a ++ sent) (used₁ ++ used) out₂ ((List.prefix_append_right_inj _).mpr hpre) ?_ ?_
        ?_ (by simp [hok₁, hok])
      · rw [List.length_append, List.length_append]
        omega
      · rw [hrec, hrec₁, List.append_assoc]
      · rw [hans₁, hans, List.append_assoc]

theorem Sent.stop (h : Sent out a false out₁) : Sent out (a ++ text) false out₁ := by
  cases h with
  | failed sent used _ hpre hlen hrec hans hok =>
    refine .failed sent used out₁ (hpre.trans (List.prefix_append _ _)) ?_ hrec hans hok
    rw [List.length_append]
    omega

/-- Without a write that fails everything goes out. -/
theorem Sent.unbroken (h : Sent out text res out₁) (hno : .error ∉ out.answers) :
    res = true ∧ out₁.received = out.received ++ text ∧ .error ∉ out₁.answers := by
  cases h with
  | whole used _ hrec hans _ =>
    rw [hans] at hno
    exact ⟨rfl, hrec, fun herr => hno (List.mem_append_right used herr)⟩
  | failed _ used _ _ _ _ hans _ =>
    rw [hans] at hno
    exact absurd (List.mem_append_right used List.mem_cons_self) hno

/-- It fails exactly if a write that it comes to does. -/
theorem Sent.failed_iff (h : Sent out text res out₁) :
    res = false ↔ ∃ used, out.answers = used ++ .error :: out₁.answers ∧ .error ∉ used := by
  cases h with
  | whole used _ _ hans hok =>
    refine iff_of_false Bool.true_eq_false.mp ?_
    rintro ⟨used', hans', -⟩
    have hsplit : used = used' ++ [.error] := by
      have happend : used ++ out₁.answers = (used' ++ [.error]) ++ out₁.answers := by
        rw [← hans, hans', List.append_assoc]
        rfl
      exact List.append_cancel_right happend
    rw [hsplit] at hok
    exact hok (List.mem_append_right used' List.mem_cons_self)
  | failed _ used _ _ _ _ hans hok => exact iff_of_true rfl ⟨used, hans, hok⟩

end Writes

/-! ### What a format prints -/

/-- The text of a number under a conversion. -/
def ConvertType.text : ConvertType → BitVec 64 → List UInt8
  | .d, v => intNumeral 10 v.toInt
  | .u, v => numeral 10 v.toNat
  | .x, v => numeral 16 v.toNat
  | .o, v => numeral 8 v.toNat
  | .p, v => str "0x" ++ numeral 16 v.toNat

/-- What stands behind `%`, the arguments that it takes, and what is printed for them. -/
inductive Spec : List UInt8 → List VarArg → List UInt8 → Prop
  | percent : Spec [37] [] [37]
  | char (v : BitVec 32) : Spec [99] [.word v] [⟨v.setWidth 8⟩]
  | string (p : BitVec 64) (bytes : List UInt8) (hp : p ≠ 0) : Spec [115] [.ptr p bytes] (cstr bytes)
  | null (bytes : List UInt8) : Spec [115] [.ptr 0 bytes] (str "(null)")
  | pointer (p : BitVec 64) (bytes : List UInt8) (hp : p ≠ 0) :
      Spec [112] [.ptr p bytes] (ConvertType.text .p p)
  | nil (bytes : List UInt8) : Spec [112] [.ptr 0 bytes] (str "(nil)")
  | int (c : UInt8) (t : ConvertType) (v : BitVec 32) (hc : intType c = some t) :
      Spec [c] [.word v] (t.text (widen t v))
  | size (z c : UInt8) (t : ConvertType) (v : BitVec 64) (hz : z = 108 ∨ z = 122)
      (hc : intType c = some t) : Spec [z, c] [.long v] (t.text v)

/-- A `%` that no conversion stands behind. -/
def Stray (f : List UInt8) : Prop := ∀ letters used text, Spec letters used text → ¬ letters <+: f

/-- Conversions print their arguments, anything else prints itself. -/
inductive Formats : List UInt8 → List VarArg → List UInt8 → Prop
  | done (args : List VarArg) : Formats [] args []
  | char (c : UInt8) {f : List UInt8} {args : List VarArg} {text : List UInt8} (hc : c ≠ 37)
      (h : Formats f args text) : Formats (c :: f) args (c :: text)
  | spec {letters f : List UInt8} {used args : List VarArg} {piece text : List UInt8}
      (hspec : Spec letters used piece) (h : Formats f args text) :
      Formats (37 :: (letters ++ f)) (used ++ args) (piece ++ text)
  | stray {f : List UInt8} {args : List VarArg} {text : List UInt8} (hstray : Stray f)
      (h : Formats f args text) : Formats (37 :: f) args (37 :: text)

section Run
variable {n : ℕ} {fmt : Buffer n} {buf : Buffer 128} {switch : Found → Except Stop Found}
  {f : List UInt8} {args : List VarArg} {pre text : List UInt8} {pos pos' : ℕ}

theorem intType_cases {c : UInt8} {t : ConvertType} (h : intType c = some t) :
    c = 100 ∨ c = 105 ∨ c = 117 ∨ c = 120 ∨ c = 111 := by
  rw [intType] at h
  split_ifs at h <;> tauto

/-- From `pos` on the text is printed: the length is added, or -1 is returned. -/
def Prints (fmt : Buffer n) (switch : Found → Except Stop Found) (buf : Buffer 128) (pos : ℕ)
    (args : List VarArg) (text : List UInt8) : Prop :=
  ∀ (out : Client) (num : ℕ), ∃ ok out', Sent out text ok out' ∧
    Converges (fun fuel => vdprintfLoop fmt switch buf fuel pos args out num)
      (if ok then ((num + text.length : ℕ) : ℤ) else -1, out')

theorem Prints.finish (h : fmt.load pos = .ok 0) : Prints fmt switch buf pos args [] := by
  intro out num
  refine ⟨true, out, .nil, Converges.const.succ fun k => ?_⟩
  rw [vdprintfLoop, h, ok_bind, if_pos rfl, if_pos rfl]
  rfl

/-- One iteration, and then the others. -/
theorem Prints.piece {c : UInt8} {piece : List UInt8} {args' : List VarArg}
    (hload : fmt.load pos = .ok c) (hc : c ≠ 0)
    (hhandle : Converges (fun k => handleFormat fmt switch k buf pos args) (pos', piece, args'))
    (hrest : Prints fmt switch buf pos' args' text) :
    Prints fmt switch buf pos args (piece ++ text) := by
  intro out num
  have hround : ∀ k, vdprintfLoop fmt switch buf (k + 1) pos args out num =
      (handleFormat fmt switch k buf pos args >>= fun r =>
        if r.2.1.length > 0 then
          if (rio_writen out r.2.1).1 then
            vdprintfLoop fmt switch buf k r.1 r.2.2 (rio_writen out r.2.1).2 (num + r.2.1.length)
          else .ok (-1, (rio_writen out r.2.1).2)
        else vdprintfLoop fmt switch buf k r.1 r.2.2 out num) := fun k => by
    rw [vdprintfLoop, hload, ok_bind]
    exact if_neg hc
  by_cases hpos : piece.length > 0
  · have hsent := rio_writen_sent out piece
    rcases hwrite : rio_writen out piece with ⟨ok₁, out₁⟩
    rw [hwrite] at hsent
    cases ok₁ with
    | false =>
      refine ⟨false, out₁, hsent.stop, Converges.succ (hhandle.bind ?_) hround⟩
      simp only [if_pos hpos, hwrite]
      exact Converges.const
    | true =>
      obtain ⟨ok, out', hsent', hrun⟩ := hrest out₁ (num + piece.length)
      refine ⟨ok, out', hsent.append hsent', Converges.succ (hhandle.bind ?_) hround⟩
      simp only [if_pos hpos, hwrite]
      rw [List.length_append, ← Nat.add_assoc]
      exact hrun
  · obtain rfl : piece = [] := List.length_eq_zero_iff.mp (by omega)
    obtain ⟨ok, out', hsent', hrun⟩ := hrest out num
    exact ⟨ok, out', hsent', Converges.succ (hhandle.bind hrun) hround⟩

/-! ### Conversions -/

theorem converted_spec (buf : Buffer 128) (t : ConvertType) (v : BitVec 64) :
    Converges (fun fuel => converted fuel buf t v) (t.text v) := by
  have hroom : 65 < buf.bytes.length := by
    rw [buf.size]
    decide
  have hunsigned : ∀ b : UInt8, 1 < b.toNat → b.toNat ≤ 36 → Converges (fun fuel =>
      uintmax_to_string fuel v buf 0 b >>= fun r => Except.ok (r.2.bytes.take r.1))
      (numeral b.toNat v.toNat) := fun b hb hmax => by
    obtain ⟨buf', hrun, hbytes'⟩ := uintmax_to_string_spec hb hmax v
      (List.nil_append buf.bytes).symm rfl (by omega)
    refine hrun.bind ?_
    simp only [hbytes', List.nil_append, List.take_left]
    exact Converges.const
  cases t with
  | d =>
    obtain ⟨buf', hrun, hbytes'⟩ := intmax_to_string_spec (by decide) (by decide) v
      (List.nil_append buf.bytes).symm rfl hroom (b := 10)
    refine hrun.bind ?_
    simp only [hbytes', List.nil_append, List.take_left]
    exact Converges.const
  | u => exact hunsigned 10 (by decide) (by decide)
  | x => exact hunsigned 16 (by decide) (by decide)
  | o => exact hunsigned 8 (by decide) (by decide)
  | p =>
    obtain ⟨buf₁, hcopy, hbytes₁⟩ := buf.memcpy_ok (p := 0) (s := str "0x" ++ [0]) (by decide)
    have hsplit : buf₁.bytes = str "0x" ++ (0 :: buf₁.bytes.drop 3) := by
      conv => lhs; rw [← List.take_append_drop 3 buf₁.bytes]
      exact congrArg (· ++ buf₁.bytes.drop 3) hbytes₁
    obtain ⟨buf', hrun, hbytes'⟩ := uintmax_to_string_spec (b := 16) (by decide) (by decide) v
      hsplit rfl (by rw [List.length_cons, List.length_drop, buf₁.size]; decide)
    have htake : buf'.bytes.take ((numeral 16 v.toNat).length + 2) =
        ConvertType.text .p v := by
      have hlen : (numeral 16 v.toNat).length + 2 = (str "0x" ++ numeral 16 v.toNat).length := by
        rw [List.length_append, Nat.add_comm]
        rfl
      rw [hbytes', hlen]
      exact List.take_left
    simp only [converted, hcopy, ok_bind]
    refine hrun.bind ?_
    rw [← htake]
    exact Converges.const

/-! ### One iteration -/

/-- An iteration that has output to show once the `switch` is through. -/
theorem handleFormat_str {rest : List VarArg} (hload : fmt.load pos = .ok 37)
    (hswitch : switch ⟨pos, args, none, none⟩ = .ok ⟨pos', rest, some text, none⟩) :
    Converges (fun k => handleFormat fmt switch k buf pos args) (pos', text, rest) := by
  refine ⟨0, fun k _ => ?_⟩
  simp only [handleFormat, formatAt, hload, ok_bind, if_true, hswitch, Found.converted,
    Found.output]

/-- An iteration that converts a number. -/
theorem handleFormat_convert {rest : List VarArg} {t : ConvertType} {v : BitVec 64}
    (hload : fmt.load pos = .ok 37)
    (hswitch : switch ⟨pos, args, none, none⟩ = .ok ⟨pos', rest, none, some (t, v)⟩) :
    Converges (fun k => handleFormat fmt switch k buf pos args) (pos', t.text v, rest) := by
  have hrun : ∀ k, handleFormat fmt switch k buf pos args =
      (converted k buf t v >>= fun text => .ok (pos', text, rest)) := fun k => by
    rw [handleFormat, formatAt, hload, ok_bind, if_pos rfl, hswitch, ok_bind, Found.converted]
    simp only [bind_assoc, ok_bind, Found.output]
  simp only [hrun]
  exact (converted_spec buf t v).bind Converges.const

/-- An iteration that takes what stands there up to the next `%`. -/
theorem handleFormat_plain {c : UInt8} (hat : fmt.At pre (c :: f))
    (hswitch : c = 37 → switch ⟨pre.length, args, none, none⟩ = .ok ⟨pre.length, args, none, none⟩) :
    Converges (fun k => handleFormat fmt switch k buf pre.length args)
      ((pre ++ c :: f.takeWhile (· ≠ 37)).length, c :: f.takeWhile (· ≠ 37), args) := by
  refine ⟨0, fun k _ => ?_⟩
  have hfound : formatAt fmt switch pre.length args = .ok ⟨pre.length, args, none, none⟩ := by
    rw [formatAt, hat.load, ok_bind]
    split
    · rename_i hc
      exact hswitch hc
    · rfl
  have hnext : fmt.At (pre ++ [c]) f := Buffer.At.advance (by simpa using hat)
  have hspan : fmt.strcspn (pre.length + 1) [37] = .ok (f.takeWhile (· ≠ 37)).length := by
    have hstring := hnext.string
    rw [List.length_append, List.length_singleton] at hstring
    rw [Buffer.strcspn, hstring, ok_bind]
    simp only [List.mem_singleton]
    rfl
  obtain ⟨⟨rest, hbytes⟩, -⟩ := hat
  have htext : (fmt.bytes.drop pre.length).take (1 + (f.takeWhile (· ≠ 37)).length) =
      c :: f.takeWhile (· ≠ 37) := by
    have hpre : f.takeWhile (· ≠ 37) <+: f ++ 0 :: rest :=
      (List.takeWhile_prefix _).trans (List.prefix_append _ _)
    rw [hbytes, List.append_assoc, List.drop_left, Nat.add_comm, List.cons_append,
      List.take_succ_cons, ← List.prefix_iff_eq_take.mp hpre]
  simp only [handleFormat, hfound, ok_bind, Found.converted, Found.output, hspan, htext]
  rw [List.length_append, List.length_cons, Nat.add_comm 1]

/-! ### The proxy's version -/

/-- A conversion prints what it should. -/
theorem handleFormat_spec {letters piece : List UInt8} {used : List VarArg}
    (hspec : Spec letters used piece) (hat : fmt.At pre (37 :: (letters ++ f))) :
    Converges (fun k => handleFormat fmt (Proxy.formatSwitch fmt) k buf pre.length (used ++ args))
      ((pre ++ 37 :: letters).length, piece, args) := by
  have hload : fmt.load pre.length = .ok 37 := hat.load
  have hnext : ∀ c rest, letters ++ f = c :: rest → fmt.load (pre.length + 1) = .ok c :=
    fun c rest h => by
      rw [h] at hat
      simpa using hat.load_getD (k := 1) (by simp)
  have hintType : ∀ c t, intType c = some t → ¬ c = 99 ∧ ¬ c = 115 ∧ ¬ c = 37 ∧ ¬ c = 112 :=
    fun c t h => by rcases intType_cases h with rfl | rfl | rfl | rfl | rfl <;> decide
  rw [List.length_append, List.length_cons]
  cases hspec with
  | percent =>
    refine handleFormat_str hload ?_
    rw [Proxy.formatSwitch, directive, hnext 37 f rfl]
    rfl
  | char v =>
    refine handleFormat_str hload ?_
    rw [Proxy.formatSwitch, directive, hnext 99 f rfl]
    rfl
  | string p bytes hp =>
    refine handleFormat_str hload ?_
    rw [Proxy.formatSwitch, directive, hnext 115 f rfl, ok_bind, if_neg (by decide), if_pos rfl]
    exact if_neg hp
  | null bytes =>
    refine handleFormat_str hload ?_
    rw [Proxy.formatSwitch, directive, hnext 115 f rfl]
    rfl
  | pointer p bytes hp =>
    refine handleFormat_convert hload ?_
    rw [Proxy.formatSwitch, directive, hnext 112 f rfl, ok_bind, if_neg (by decide),
      if_neg (by decide), if_neg (by decide), if_pos rfl]
    exact if_neg hp
  | nil bytes =>
    refine handleFormat_str hload ?_
    rw [Proxy.formatSwitch, directive, hnext 112 f rfl]
    rfl
  | int c t v hc =>
    refine handleFormat_convert hload ?_
    obtain ⟨h₁, h₂, h₃, h₄⟩ := hintType c t hc
    rw [Proxy.formatSwitch, directive, hnext c f rfl]
    simp [h₁, h₂, h₃, h₄, hc, va_word]
  | size z c t v hz hc =>
    refine handleFormat_convert hload ?_
    have hthird : fmt.load (pre.length + 2) = .ok c := by
      simpa using hat.load_getD (k := 2) (by simp)
    rw [Proxy.formatSwitch, directive, hnext z (c :: f) rfl]
    rcases hz with rfl | rfl
    · simp [show intType 108 = none from rfl, sized, hthird, hc, va_long]
    · simp [show intType 122 = none from rfl, sized, hthird, hc, va_long]

theorem Stray.sized (hstray : Stray f) {z : UInt8} {rest : List UInt8} (hz : z = 108 ∨ z = 122)
    (hf : f = z :: rest) : intType (rest.getD 0 0) = none := by
  cases rest with
  | nil => rfl
  | cons c rest =>
    by_contra hc
    obtain ⟨t, ht⟩ := Option.ne_none_iff_exists'.mp hc
    exact hstray _ _ _ (.size z c t 0 hz ht) ⟨rest, hf.symm⟩

/-- A `%` without a conversion is left where it is. -/
theorem formatSwitch_stray (hat : fmt.At pre (37 :: f)) (hstray : Stray f) :
    Proxy.formatSwitch fmt ⟨pre.length, args, none, none⟩ = .ok ⟨pre.length, args, none, none⟩ := by
  have hload : fmt.load (pre.length + 1) = .ok (f.getD 0 0) := hat.load_getD (k := 1) (by simp)
  cases f with
  | nil =>
    rw [Proxy.formatSwitch, directive, hload]
    rfl
  | cons c rest =>
    have hprefix : [c] <+: c :: rest := ⟨rest, rfl⟩
    have hchar : ¬ c = 99 := fun h => hstray _ _ _ (.char 0) (h ▸ hprefix)
    have hstring : ¬ c = 115 := fun h => hstray _ _ _ (.null []) (h ▸ hprefix)
    have hpercent : ¬ c = 37 := fun h => hstray _ _ _ .percent (h ▸ hprefix)
    have hpointer : ¬ c = 112 := fun h => hstray _ _ _ (.nil []) (h ▸ hprefix)
    have hint : intType c = none := by
      by_contra hc
      obtain ⟨t, ht⟩ := Option.ne_none_iff_exists'.mp hc
      exact hstray _ _ _ (.int c t 0 ht) hprefix
    have hsized : c = 108 ∨ c = 122 → ∀ g : Found, g.pos = pre.length → sized fmt g = .ok g := by
      intro hz g hg
      have hthird : fmt.load (g.pos + 2) = .ok (rest.getD 0 0) := by
        rw [hg]
        exact hat.load_getD (k := 2) (by simp)
      rw [sized, hthird, ok_bind, hstray.sized hz rfl]
    rw [Proxy.formatSwitch, directive, hload, List.getD_cons_zero, ok_bind, if_neg hchar,
      if_neg hstring, if_neg hpercent, if_neg hpointer, hint]
    simp only
    split
    · rename_i hl
      exact hsized (Or.inl hl) _ rfl
    · split
      · rename_i hz
        exact hsized (Or.inr hz) _ rfl
      · rfl

/-! ### The whole format -/

theorem Formats.tail {c : UInt8} (hc : c ≠ 37) (h : Formats (c :: f) args text) :
    ∃ rest, text = c :: rest ∧ Formats f args rest := by
  cases h with
  | char _ _ h => exact ⟨_, rfl, h⟩
  | spec => exact absurd rfl hc
  | stray => exact absurd rfl hc

/-- Text without `%` prints itself. -/
theorem Formats.plain {run : List UInt8} (hrun : ∀ c ∈ run, c ≠ 37)
    (h : Formats (run ++ f) args text) : ∃ rest, text = run ++ rest ∧ Formats f args rest := by
  induction run generalizing text with
  | nil => exact ⟨text, rfl, h⟩
  | cons c run ih =>
    obtain ⟨text', rfl, h'⟩ := h.tail (hrun c List.mem_cons_self)
    obtain ⟨rest, rfl, hrest⟩ := ih (fun d hd => hrun d (List.mem_cons_of_mem c hd)) h'
    exact ⟨rest, rfl, hrest⟩

/-- A piece that is output up to the next `%`, and then the others. -/
theorem Prints.plain {c : UInt8} (hat : fmt.At pre (c :: f))
    (hswitch : c = 37 → Proxy.formatSwitch fmt ⟨pre.length, args, none, none⟩ =
      .ok ⟨pre.length, args, none, none⟩)
    (h : Formats f args text)
    (hrest : ∀ g pre' text, g.length ≤ f.length → fmt.At pre' g → Formats g args text →
      Prints fmt (Proxy.formatSwitch fmt) buf pre'.length args text) :
    Prints fmt (Proxy.formatSwitch fmt) buf pre.length args (c :: text) := by
  have hsplit := List.takeWhile_append_dropWhile (p := (· ≠ 37)) (l := f)
  rw [← hsplit] at h
  obtain ⟨text', rfl, h'⟩ := Formats.plain
    (fun d hd => by simpa using List.mem_takeWhile_imp hd) h
  have hnext : fmt.At (pre ++ c :: f.takeWhile (· ≠ 37)) (f.dropWhile (· ≠ 37)) :=
    Buffer.At.advance (by rw [List.cons_append, hsplit]; exact hat)
  exact Prints.piece hat.load (fun hc => hat.2 (by simp [hc])) (handleFormat_plain hat hswitch)
    (hrest _ _ _ (List.dropWhile_suffix _).length_le hnext h')

/-- The text of a format is printed from wherever the format stands. -/
theorem Formats.prints (buf : Buffer 128) : ∀ (m : ℕ) {f pre text : List UInt8}
    {args : List VarArg}, f.length < m → Formats f args text → fmt.At pre f →
      Prints fmt (Proxy.formatSwitch fmt) buf pre.length args text
  | 0, _, _, _, _, hlen, _, _ => absurd hlen (Nat.not_lt_zero _)
  | m + 1, _, pre, _, _, hlen, h, hat => by
      cases h with
      | done => exact .finish (by simpa using hat.load_getD (Nat.zero_le _))
      | char c hc h =>
        refine Prints.plain hat (fun h37 => absurd h37 hc) h fun g pre' text hg hat' h' => ?_
        exact Formats.prints buf m (by rw [List.length_cons] at hlen; omega) h' hat'
      | @spec letters f used args piece text hspec h =>
        refine Prints.piece hat.load (by decide) (handleFormat_spec hspec hat) ?_
        have hnext : fmt.At (pre ++ 37 :: letters) f := Buffer.At.advance (by simpa using hat)
        refine Formats.prints buf m ?_ h hnext
        rw [List.length_cons, List.length_append] at hlen
        omega
      | stray hstray h =>
        refine Prints.plain hat (fun _ => formatSwitch_stray hat hstray) h
          fun g pre' text hg hat' h' => ?_
        exact Formats.prints buf m (by rw [List.length_cons] at hlen; omega) h' hat'

/-- `sio_vdprintf` prints the text of the format, and returns its length; or it returns -1 after
    a write that failed, and has printed a part that is not the whole. -/
theorem sio_vdprintf_formats (h : Formats f args text) (hat : fmt.At [] f) (out : Client) :
    ∃ res out', Sent out text res out' ∧
      Converges (fun fuel => Proxy.sio_vdprintf fuel out fmt args)
        (if res then (text.length : ℤ) else -1, out') := by
  obtain ⟨res, out', hsent, hrun⟩ := h.prints (Buffer.strncpy 128 []) _ (Nat.lt_succ_self _) hat out 0
  rw [Nat.zero_add] at hrun
  exact ⟨res, out', hsent, hrun⟩

/-- `%d` and a new line, for -1, through a short write and an interrupted one. -/
theorem sio_vdprintf_minus : ∃ res out',
    Sent ⟨[], [.sent 0, .eintr]⟩ (ConvertType.text .d (widen .d (-1)) ++ [10]) res out' ∧
      Converges (fun fuel => Proxy.sio_vdprintf fuel ⟨[], [.sent 0, .eintr]⟩
        ⟨[37, 100, 10, 0], rfl⟩ [.word (-1)])
        (if res then ((ConvertType.text .d (widen .d (-1)) ++ [10]).length : ℤ) else -1, out') :=
  sio_vdprintf_formats
    (.spec (.int 100 .d (-1) rfl) (.char 10 (by decide) (.done [])))
    ⟨⟨[], rfl⟩, by decide⟩ _

end Run

end Labs.Sio
