import Mathlib.Data.Option.Basic
import SystemsLabs.Shelllab.Parseline

/-! @lab shelllab | file:tsh_helper.c (parseline) | structure:tokens of a line | scheme:buffer |
    main result:parseline_reads

    What a line says, without the buffer: its tokens, and what they make of the arguments and files
    one after the other. The loop over the buffer does the same: after each round the part passed
    holds the strings read so far, and the rest is the text still to read. -/

namespace Labs.Shell
open Schemes

/-- A token; an opening quote without its closing one ends the line. -/
inductive Lexeme where
  | less
  | greater
  | word (quoted : Bool) (s : Bytes)
  | unmatched (c : UInt8)
  deriving DecidableEq, Repr

def Blank (w : Bytes) : Prop := ∀ c ∈ w, c ∈ delims

/-- The characters that a token other than an unquoted word starts with. -/
def marks : List UInt8 := [60, 62, 39, 34]

/-- The tokens that a text spells. -/
inductive Lexes : Bytes → List Lexeme → Prop
  | blank {w} (hw : Blank w) : Lexes w []
  | less {w t ts} (hw : Blank w) (ht : Lexes t ts) : Lexes (w ++ 60 :: t) (.less :: ts)
  | greater {w t ts} (hw : Blank w) (ht : Lexes t ts) : Lexes (w ++ 62 :: t) (.greater :: ts)
  | quoted {w c s t ts} (hw : Blank w) (hc : c = 39 ∨ c = 34) (hs : c ∉ s) (ht : Lexes t ts) :
      Lexes (w ++ c :: (s ++ c :: t)) (.word true s :: ts)
  | unmatched {w c s} (hw : Blank w) (hc : c = 39 ∨ c = 34) (hs : c ∉ s) :
      Lexes (w ++ c :: s) [.unmatched c]
  | word {w c s d t ts} (hw : Blank w) (hc : c ∉ marks) (hs : ∀ x ∈ c :: s, x ∉ delims)
      (hd : d ∈ delims) (ht : Lexes t ts) :
      Lexes (w ++ c :: (s ++ d :: t)) (.word false (c :: s) :: ts)
  | last {w c s} (hw : Blank w) (hc : c ∉ marks) (hs : ∀ x ∈ c :: s, x ∉ delims) :
      Lexes (w ++ c :: s) [.word false (c :: s)]

/-- What has been read of a line. -/
structure Line where
  args : List Bytes
  infile : Option Bytes
  outfile : Option Bytes
  mode : ParseState

def Line.empty : Line := ⟨[], none, none, .ST_NORMAL⟩

def Line.record (l : Line) (s : Bytes) : Line :=
  match l.mode with
  | .ST_NORMAL => { l with args := l.args ++ [s] }
  | .ST_INFILE => { l with infile := some s, mode := .ST_NORMAL }
  | .ST_OUTFILE => { l with outfile := some s, mode := .ST_NORMAL }

/-- The tokens read in order, until one is an error or the argument list is full. -/
def Line.scan : Line → List Lexeme → Except String Line
  | l, [] => .ok l
  | l, .less :: ts =>
    if l.infile.isSome then .error ambiguous else Line.scan { l with mode := .ST_INFILE } ts
  | l, .greater :: ts =>
    if l.outfile.isSome then .error ambiguous else Line.scan { l with mode := .ST_OUTFILE } ts
  | _, .unmatched c :: _ => .error (unmatched c)
  | l, .word _ s :: ts =>
    if MAXARGS - 1 ≤ (l.record s).args.length then .ok (l.record s)
    else Line.scan (l.record s) ts

/-! ### What the buffer holds -/

/-- The strings read so far lie in `done`, the part of the buffer that the loop has passed. -/
structure Reads (done : Bytes) (p : Parse) (l : Line) : Prop where
  start : done <+: p.token._buf.bytes
  mode : p.parsing_state = l.mode
  argc : p.token.argc = l.args.length
  argv : ∀ (k : Fin MAXARGS) s, l.args[k.val]? = some s →
    ∃ q, p.token.argv k = some q ∧ Buffer.Kept done q s
  infile : Option.Rel (Buffer.Kept done) p.token.infile l.infile
  outfile : Option.Rel (Buffer.Kept done) p.token.outfile l.outfile

variable {done done' s t u w : Bytes} {c : UInt8} {p p' : Parse} {l : Line} {q endbuf : ℕ}
  {b : Buffer MAXLINE_TSH}

theorem kept_mono (hle : done <+: done') {q : ℕ} {s : Bytes} (h : Buffer.Kept done q s) :
    Buffer.Kept done' q s := by
  obtain ⟨x, rfl⟩ := hle
  exact h.append

theorem rel_mono {o : Option ℕ} {o' : Option Bytes} (hle : done <+: done')
    (h : Option.Rel (Buffer.Kept done) o o') : Option.Rel (Buffer.Kept done') o o' := by
  cases h with
  | some hk => exact .some (kept_mono hle hk)
  | none => exact .none

/-- The `switch`, once the token lies in the part passed. -/
theorem Reads.record (h : Reads done p l) (hroom : l.args.length < MAXARGS - 1)
    (hle : done <+: done') (hstart : done' <+: b.bytes) (hkept : Buffer.Kept done' q s) :
    ∃ p', Parse.record { p with token := { p.token with _buf := b } } q = .ok p' ∧
      p'.token._buf = b ∧ Reads done' p' (l.record s) := by
  have hargv : ∀ (k : Fin MAXARGS) s, l.args[k.val]? = some s →
      ∃ q, p.token.argv k = some q ∧ Buffer.Kept done' q s := fun k s hk => by
    obtain ⟨q, hq, hkept⟩ := h.argv k s hk
    exact ⟨q, hq, kept_mono hle hkept⟩
  have hmode := h.mode
  rw [Parse.record, Line.record]
  cases hl : l.mode with
  | ST_NORMAL =>
    have hk : p.token.argc < MAXARGS := by
      rw [h.argc]
      omega
    simp only [hmode.trans hl, CmdlineTokens.setArgv, dif_pos hk, ok_bind]
    refine ⟨_, rfl, rfl, hstart, rfl, by simp [h.argc], fun k s' hk' => ?_,
      rel_mono hle h.infile, rel_mono hle h.outfile⟩
    by_cases heq : k.val = l.args.length
    · obtain rfl : k = ⟨p.token.argc, hk⟩ := Fin.ext (heq.trans h.argc.symm)
      obtain rfl : s = s' := by simpa [h.argc] using hk'
      exact ⟨q, by simp, hkept⟩
    · have hne : k ≠ ⟨p.token.argc, hk⟩ := fun hk => heq (by rw [hk, ← h.argc])
      have hlt : k.val < l.args.length := by
        have := (List.getElem?_eq_some_iff.mp hk').1
        simp only [List.length_append, List.length_singleton] at this
        omega
      rw [List.getElem?_append_left hlt] at hk'
      simpa [hne] using hargv k s' hk'
  | ST_INFILE =>
    simp only [hmode.trans hl]
    exact ⟨_, rfl, rfl, hstart, rfl, h.argc, hargv, .some hkept, rel_mono hle h.outfile⟩
  | ST_OUTFILE =>
    simp only [hmode.trans hl]
    exact ⟨_, rfl, rfl, hstart, rfl, h.argc, hargv, rel_mono hle h.infile, .some hkept⟩

theorem Reads.terminate {next : ℕ} (h : Reads done p l) (hroom : l.args.length < MAXARGS - 1)
    (hstore : p.token._buf.store next 0 = .ok b) (hle : done <+: done')
    (hstart : done' <+: b.bytes) (hkept : Buffer.Kept done' q s) :
    ∃ p', p.terminate q next = .ok (if MAXARGS - 1 ≤ (l.record s).args.length then
        .stop (.left { p' with buf := q }) else .again { p' with buf := next + 1 }) ∧
      p'.token._buf = b ∧ Reads done' p' (l.record s) := by
  obtain ⟨p', hrecord, hb, hread⟩ := h.record hroom hle hstart hkept
  refine ⟨p', ?_, hb, hread⟩
  rw [Parse.terminate, hstore, ok_bind, hrecord, ok_bind, hread.argc]
  split <;> rfl

/-- The reading position does not matter. -/
theorem Reads.at (h : Reads done p l) (buf : ℕ) : Reads done { p with buf := buf } l :=
  { h with }

/-! ### One round -/

/-- The loop is about to read `text`, and has passed `done`. -/
structure Facing (endbuf : ℕ) (p : Parse) (done text : Bytes) : Prop where
  pos : p.buf = done.length
  fin : endbuf = p.buf + text.length
  text : p.token._buf.At done text

theorem Blank.all (hw : Blank w) : ∀ x ∈ w, decide (x ∈ delims) = true := fun x hx => by
  simpa using hw x hx

theorem takeWhile_blank (hw : Blank w) (hc : c ∉ delims) :
    (w ++ c :: t).takeWhile (· ∈ delims) = w := by
  rw [List.takeWhile_append_of_pos hw.all, List.takeWhile_cons_of_neg (by simpa using hc),
    List.append_nil]

theorem takeWhile_word (hs : ∀ x ∈ s, x ∉ delims) : s.takeWhile (· ∉ delims) = s := by
  rw [List.takeWhile_eq_self_iff]
  exact fun x hx => by simpa using hs x hx

theorem takeWhile_word_append {d : UInt8} (hs : ∀ x ∈ s, x ∉ delims) (hd : d ∈ delims) :
    (s ++ d :: t).takeWhile (· ∉ delims) = s := by
  rw [List.takeWhile_append_of_pos (List.takeWhile_eq_self_iff.mp (takeWhile_word hs)),
    List.takeWhile_cons_of_neg (by simpa using hd), List.append_nil]

/-- White-space is skipped, and the first other character decides. -/
theorem Facing.round_dispatch (h : Facing endbuf p done (w ++ c :: t)) (hw : Blank w) (hc : c ∉ delims) :
    round endbuf p = p.dispatch (done ++ w).length c := by
  have hspan : p.token._buf.strspn p.buf delims = .ok w.length := by
    rw [Buffer.strspn, h.pos, h.text.string, ok_bind, takeWhile_blank hw hc]
    rfl
  have hload := h.text.advance.load
  have hmore : ¬ endbuf ≤ (done ++ w).length := by
    rw [h.fin, h.pos]
    simp
  rw [round, hspan, ok_bind, h.pos, ← List.length_append, if_neg hmore, hload, ok_bind]

theorem Facing.round_blank (h : Facing endbuf p done w) (hw : Blank w) :
    round endbuf p = .ok (.stop (.left { p with buf := endbuf })) := by
  have hspan : p.token._buf.strspn p.buf delims = .ok w.length := by
    rw [Buffer.strspn, h.pos, h.text.string, ok_bind, List.takeWhile_eq_self_iff.mpr hw.all]
    rfl
  rw [round, hspan, ok_bind, if_pos (by rw [h.fin]), h.fin]
  rfl

/-- After the mark of a redirection. -/
theorem Facing.next (h : Facing endbuf p done (w ++ c :: t)) (mode : ParseState) :
    Facing endbuf { p with buf := (done ++ w).length + 1, parsing_state := mode }
      (done ++ (w ++ [c])) t := by
  refine ⟨by simp [Nat.add_assoc], ?_, ?_⟩
  · rw [h.fin, h.pos]
    simp
    omega
  · have htext := h.text
    rw [List.append_cons] at htext
    exact htext.advance

/-- A round that ends a token, in place of the character after it. -/
theorem Facing.token {d : UInt8} {u : Bytes} (h : Facing endbuf p done (u ++ (s ++ d :: t)))
    (hr : Reads done p l) (hroom : l.args.length < MAXARGS - 1) :
    ∃ p', p.terminate (done ++ u).length ((done ++ u).length + s.length) =
        .ok (if MAXARGS - 1 ≤ (l.record s).args.length then
          .stop (.left { p' with buf := (done ++ u).length }) else .again p') ∧
      Reads (done ++ u ++ (s ++ [0])) p' (l.record s) ∧
      Facing endbuf p' (done ++ u ++ (s ++ [0])) t := by
  have hs : 0 ∉ s := fun h0 => h.text.2 (by simp [h0])
  obtain ⟨b, hstore, hat⟩ := h.text.advance.cut
  obtain ⟨p', hterm, hb, hread⟩ := hr.terminate hroom hstore
    ((List.prefix_append done u).trans (List.prefix_append _ _)) hat.start (.last hs)
  refine ⟨{ p' with buf := (done ++ u).length + s.length + 1 }, hterm, hread.at _, ?_, ?_, hb ▸ hat⟩
  · simp [Nat.add_assoc]
  · rw [h.fin, h.pos]
    simp
    omega

/-- A round that ends the last token of the line. -/
theorem Facing.lastToken {u : Bytes} (h : Facing endbuf p done (u ++ s))
    (hr : Reads done p l) (hroom : l.args.length < MAXARGS - 1) :
    ∃ p', p.terminate (done ++ u).length ((done ++ u).length + s.length) =
        .ok (if MAXARGS - 1 ≤ (l.record s).args.length then
          .stop (.left { p' with buf := (done ++ u).length }) else .again p') ∧
      Reads (done ++ u ++ (s ++ [0])) p' (l.record s) ∧ p'.buf = endbuf + 1 := by
  have hs : 0 ∉ s := fun h0 => h.text.2 (by simp [h0])
  obtain ⟨b, hstore, hstart⟩ := h.text.advance.cutLast
  obtain ⟨p', hterm, hb, hread⟩ := hr.terminate hroom hstore
    ((List.prefix_append done u).trans (List.prefix_append _ _)) hstart (.last hs)
  refine ⟨{ p' with buf := (done ++ u).length + s.length + 1 }, hterm, hread.at _, ?_⟩
  rw [h.fin, h.pos]
  simp
  omega

theorem Facing.marked (h : Facing endbuf p done (w ++ c :: t)) (hr : Reads done p l)
    {mode : ParseState} :
    Reads (done ++ (w ++ [c])) { p with buf := (done ++ w).length + 1, parsing_state := mode }
      { l with mode := mode } := by
  have hle : done <+: done ++ (w ++ [c]) := List.prefix_append _ _
  refine ⟨(h.next mode).text.start, rfl, hr.argc, fun k s hk => ?_,
    rel_mono hle hr.infile, rel_mono hle hr.outfile⟩
  obtain ⟨q, hq, hkept⟩ := hr.argv k s hk
  exact ⟨q, hq, kept_mono hle hkept⟩

/-! ### What each token makes of a round -/

theorem Reads.rel_isSome {o : Option ℕ} {o' : Option Bytes}
    (h : Option.Rel (Buffer.Kept done) o o') : o.isSome = o'.isSome := by
  cases h <;> rfl

theorem dispatch_less : p.dispatch q 60 = if p.token.infile.isSome
    then .ok (.stop (.failed p.token ambiguous))
    else .ok (.again { p with buf := q + 1, parsing_state := .ST_INFILE }) := rfl

theorem dispatch_greater : p.dispatch q 62 = if p.token.outfile.isSome
    then .ok (.stop (.failed p.token ambiguous))
    else .ok (.again { p with buf := q + 1, parsing_state := .ST_OUTFILE }) := rfl

theorem quote_not_delim (hc : c = 39 ∨ c = 34) : c ∉ delims := by
  rcases hc with rfl | rfl <;> decide

/-- A quote is skipped, and the next one of the same kind looked for. -/
theorem dispatch_quote {next : Option ℕ} (hc : c = 39 ∨ c = 34)
    (hat : p.token._buf.At done (w ++ c :: t))
    (hchr : p.token._buf.strchr (done ++ (w ++ [c])).length c = .ok next) :
    p.dispatch (done ++ w).length c = next.elim (.ok (.stop (.failed p.token (unmatched c))))
      (p.terminate (done ++ (w ++ [c])).length) := by
  have hload := hat.advance.load
  have hbuf : (done ++ (w ++ [c])).length = (done ++ w).length + 1 := by simp [Nat.add_assoc]
  have hless : ¬ c = 60 ∧ ¬ c = 62 := by rcases hc with rfl | rfl <;> decide
  rw [hbuf] at hchr ⊢
  rw [Parse.dispatch, if_neg hless.1, if_neg hless.2, if_pos hc]
  cases next with
  | none =>
    simp only [hchr, ok_bind, Nat.add_sub_cancel, hload]
    rfl
  | some next => simp only [hchr, ok_bind, Option.elim_some]

theorem dispatch_quoted (hc : c = 39 ∨ c = 34) (hs : c ∉ s)
    (hat : p.token._buf.At done (w ++ c :: (s ++ c :: t))) :
    p.dispatch (done ++ w).length c =
      p.terminate (done ++ (w ++ [c])).length ((done ++ (w ++ [c])).length + s.length) := by
  have htail := hat
  rw [List.append_cons] at htail
  have hchr : p.token._buf.strchr (done ++ (w ++ [c])).length c =
      .ok (some ((done ++ (w ++ [c])).length + s.length)) := by
    rw [Buffer.strchr, htail.advance.string, ok_bind, if_pos (by simp), takeWhile_ne hs]
    rfl
  exact dispatch_quote hc hat hchr

theorem dispatch_unmatched (hc : c = 39 ∨ c = 34) (hs : c ∉ s)
    (hat : p.token._buf.At done (w ++ c :: s)) :
    p.dispatch (done ++ w).length c = .ok (.stop (.failed p.token (unmatched c))) := by
  have htail := hat
  rw [List.append_cons] at htail
  have hchr : p.token._buf.strchr (done ++ (w ++ [c])).length c = .ok none := by
    rw [Buffer.strchr, htail.advance.string, ok_bind, if_neg hs]
    rfl
  exact dispatch_quote hc hat hchr

/-- Any other character: the token ends at the next white-space, or with the line. -/
theorem dispatch_word (hc : c ∉ marks) (hat : p.token._buf.At (done ++ w) (c :: u))
    (hs : (c :: u).takeWhile (· ∉ delims) = s) :
    p.dispatch (done ++ w).length c =
      p.terminate (done ++ w).length ((done ++ w).length + s.length) := by
  have hspan : p.token._buf.strcspn (done ++ w).length delims = .ok s.length := by
    rw [Buffer.strcspn, hat.string, ok_bind, hs]
    rfl
  simp only [marks, List.mem_cons, List.not_mem_nil, or_false, not_or] at hc
  rw [Parse.dispatch, if_neg hc.1, if_neg hc.2.1, if_neg (by simp [hc]), hspan, ok_bind]

/-! ### The loop -/

/-- The loop ends with what the tokens make of the line. -/
def Ends (endbuf : ℕ) (p : Parse) : Except String Line → Prop
  | .ok l => ∃ p' done, Converges (fun fuel => scanLoop endbuf fuel p) (.left p') ∧ Reads done p' l
  | .error m => ∃ token, Converges (fun fuel => scanLoop endbuf fuel p) (.failed token m)

theorem scanLoop_left (h : endbuf ≤ p.buf) :
    Converges (fun fuel => scanLoop endbuf fuel p) (.left p) :=
  Converges.const.succ fun _ => if_neg (Nat.not_lt.mpr h)

theorem scanLoop_stop {r : Scanned} (hlt : p.buf < endbuf)
    (hround : round endbuf p = .ok (.stop r)) :
    Converges (fun fuel => scanLoop endbuf fuel p) r := by
  refine Converges.const.succ fun k => ?_
  rw [scanLoop, if_pos hlt, hround]
  rfl

theorem scanLoop_again {r : Scanned} (hlt : p.buf < endbuf)
    (hround : round endbuf p = .ok (.again p'))
    (h : Converges (fun fuel => scanLoop endbuf fuel p') r) :
    Converges (fun fuel => scanLoop endbuf fuel p) r := by
  refine h.succ fun k => ?_
  rw [scanLoop, if_pos hlt, hround]
  rfl

theorem Ends.again {r : Except String Line} (hlt : p.buf < endbuf)
    (hround : round endbuf p = .ok (.again p')) (h : Ends endbuf p' r) : Ends endbuf p r := by
  cases r with
  | ok l =>
    obtain ⟨p'', done, hloop, hread⟩ := h
    exact ⟨p'', done, scanLoop_again hlt hround hloop, hread⟩
  | error m =>
    obtain ⟨token, hloop⟩ := h
    exact ⟨token, scanLoop_again hlt hround hloop⟩

theorem Facing.more (h : Facing endbuf p done (w ++ c :: t)) : p.buf < endbuf := by
  rw [h.fin, List.length_append, List.length_cons]
  omega

/-- The loop over the buffer reads the tokens of the text. -/
theorem Lexes.ends {text : Bytes} {ts : List Lexeme} (h : Lexes text ts) :
    ∀ {p : Parse} {done : Bytes} {l : Line}, Facing endbuf p done text → Reads done p l →
      l.args.length < MAXARGS - 1 → Ends endbuf p (l.scan ts) := by
  induction h with
  | @blank w hw =>
    intro p done l hf hr _
    rcases Nat.lt_or_ge p.buf endbuf with hlt | hge
    · exact ⟨_, done, scanLoop_stop hlt (hf.round_blank hw), hr.at _⟩
    · exact ⟨p, done, scanLoop_left hge, hr⟩
  | @less w t ts hw _ ih =>
    intro p done l hf hr hroom
    have hround := (hf.round_dispatch hw (by decide)).trans dispatch_less
    rw [Reads.rel_isSome hr.infile] at hround
    rw [Line.scan]
    split_ifs at hround ⊢
    · exact ⟨p.token, scanLoop_stop hf.more hround⟩
    · exact .again hf.more hround (ih (hf.next _) (hf.marked hr) hroom)
  | @greater w t ts hw _ ih =>
    intro p done l hf hr hroom
    have hround := (hf.round_dispatch hw (by decide)).trans dispatch_greater
    rw [Reads.rel_isSome hr.outfile] at hround
    rw [Line.scan]
    split_ifs at hround ⊢
    · exact ⟨p.token, scanLoop_stop hf.more hround⟩
    · exact .again hf.more hround (ih (hf.next _) (hf.marked hr) hroom)
  | @quoted w c s t ts hw hc hs _ ih =>
    intro p done l hf hr hroom
    have hround := (hf.round_dispatch hw (quote_not_delim hc)).trans
      (dispatch_quoted hc hs hf.text)
    have hmore := hf.more
    rw [List.append_cons] at hf
    obtain ⟨p', hterm, hread, hnext⟩ := hf.token hr hroom
    rw [hterm] at hround
    rw [Line.scan]
    split_ifs at hround ⊢ with hfull
    · exact ⟨_, _, scanLoop_stop hmore hround, hread.at _⟩
    · exact .again hmore hround (ih hnext hread (by omega))
  | @unmatched w c s hw hc hs =>
    intro p done l hf _ _
    exact ⟨p.token, scanLoop_stop hf.more
      ((hf.round_dispatch hw (quote_not_delim hc)).trans
        (dispatch_unmatched hc hs hf.text))⟩
  | @word w c s d t ts hw hc hs hd _ ih =>
    intro p done l hf hr hroom
    have hspan : (c :: (s ++ d :: t)).takeWhile (· ∉ delims) = c :: s := by
      rw [← List.cons_append, takeWhile_word_append hs hd]
    have hround := (hf.round_dispatch hw (hs c (by simp))).trans
      (dispatch_word hc hf.text.advance hspan)
    have hmore := hf.more
    rw [← List.cons_append] at hf
    obtain ⟨p', hterm, hread, hnext⟩ := hf.token hr hroom
    rw [hterm] at hround
    rw [Line.scan]
    split_ifs at hround ⊢ with hfull
    · exact ⟨_, _, scanLoop_stop hmore hround, hread.at _⟩
    · exact .again hmore hround (ih hnext hread (by omega))
  | @last w c s hw hc hs =>
    intro p done l hf hr hroom
    have hround := (hf.round_dispatch hw (hs c (by simp))).trans
      (dispatch_word hc hf.text.advance (takeWhile_word hs))
    obtain ⟨p', hterm, hread, hend⟩ := hf.lastToken hr hroom
    rw [hterm] at hround
    rw [Line.scan]
    split_ifs at hround ⊢ with hfull
    · exact ⟨_, _, scanLoop_stop hf.more hround, hread.at _⟩
    · exact .again hf.more hround ⟨p', _, scanLoop_left (by omega), hread⟩

/-! ### What the caller gets -/

/-- The strings that the fields of a token structure point to. -/
structure CmdlineTokens.Holds (t : CmdlineTokens) (args : List Bytes) (infile outfile : Option Bytes) :
    Prop where
  argc : t.argc = args.length
  argv : ∀ (k : Fin MAXARGS) s, args[k.val]? = some s →
    ∃ q, t.argv k = some q ∧ t._buf.string q = .ok s
  null : ∀ k : Fin MAXARGS, k.val = args.length → t.argv k = none
  infile : Option.Rel (fun q s => t._buf.string q = .ok s) t.infile infile
  outfile : Option.Rel (fun q s => t._buf.string q = .ok s) t.outfile outfile

variable {token : CmdlineTokens} {args : List Bytes} {infile outfile : Option Bytes}

theorem rel_string {o : Option ℕ} {o' : Option Bytes} (hstart : done <+: b.bytes)
    (h : Option.Rel (Buffer.Kept done) o o') :
    Option.Rel (fun q s => b.string q = .ok s) o o' := by
  cases h with
  | some hk => exact .some (hk.string hstart)
  | none => exact .none

/-- "The argument list must end with a NULL pointer". -/
theorem Reads.close (h : Reads done p l) (hroom : l.args.length < MAXARGS) :
    ∃ t, p.token.setArgv p.token.argc none = .ok t ∧ t.Holds l.args l.infile l.outfile := by
  have hk : p.token.argc < MAXARGS := h.argc ▸ hroom
  refine ⟨_, dif_pos hk, h.argc, fun k s hs => ?_, fun k heq => ?_, rel_string h.start h.infile,
    rel_string h.start h.outfile⟩
  · obtain ⟨q, hq, hkept⟩ := h.argv k s hs
    have hne : k ≠ ⟨p.token.argc, hk⟩ := fun heq => by
      have hlt := (List.getElem?_eq_some_iff.mp hs).1
      rw [heq] at hlt
      exact absurd h.argc (by simp at hlt; omega)
    exact ⟨q, by simpa [hne] using hq, hkept.string h.start⟩
  · obtain rfl : k = ⟨p.token.argc, hk⟩ := Fin.ext (heq.trans h.argc.symm)
    simp

theorem CmdlineTokens.Holds.arg {k : ℕ} (h : token.Holds args infile outfile)
    (hk : k < MAXARGS) (hs : args[k]? = some s) :
    ∃ q, token.arg k = .ok q ∧ token._buf.string q = .ok s := by
  obtain ⟨q, hq, hstring⟩ := h.argv ⟨k, hk⟩ s hs
  exact ⟨q, by rw [CmdlineTokens.arg, dif_pos hk, hq], hstring⟩

/-- The last argument taken off. -/
theorem CmdlineTokens.Holds.pop (h : token.Holds (args ++ [s]) infile outfile)
    (hroom : args.length < MAXARGS) :
    ∃ t, CmdlineTokens.setArgv { token with argc := token.argc - 1 } (token.argc - 1) none = .ok t ∧
      t.builtin = token.builtin ∧ t.Holds args infile outfile := by
  have hargc : token.argc - 1 = args.length := by simp [h.argc]
  rw [hargc]
  refine ⟨_, dif_pos hroom, rfl, rfl, fun k s' hs' => ?_, fun k heq => ?_, h.infile, h.outfile⟩
  · have hlt := (List.getElem?_eq_some_iff.mp hs').1
    have hne : k ≠ ⟨args.length, hroom⟩ := fun heq => by simp [heq] at hlt
    simpa [hne] using h.argv k s' (by rw [List.getElem?_append_left hlt, hs'])
  · obtain rfl : k = ⟨args.length, hroom⟩ := Fin.ext heq
    simp

theorem Reads.finish {a z : Bytes} (h : Reads done p l) (hmode : l.mode = .ST_NORMAL)
    (hroom : l.args.length < MAXARGS) (ha : l.args.head? = some a) (hl : l.args = args ++ [z]) :
    ∃ t, t.builtin = builtin_of a ∧
      if z.head? = some 38 then p.finish = .ok ⟨.PARSELINE_BG, t, ""⟩ ∧ t.Holds args l.infile l.outfile
      else p.finish = .ok ⟨.PARSELINE_FG, t, ""⟩ ∧ t.Holds l.args l.infile l.outfile := by
  obtain ⟨t, hset, ht⟩ := h.close hroom
  have hlen : l.args.length = args.length + 1 := by simp [hl]
  obtain ⟨q₀, hq₀, hcommand⟩ := ht.arg (by omega : 0 < MAXARGS) (by rw [← List.head?_eq_getElem?, ha])
  have hb : ({ t with builtin := builtin_of a } : CmdlineTokens).Holds l.args l.infile l.outfile :=
    { ht with }
  have hz : l.args[t.argc - 1]? = some z := by simp [ht.argc, hl]
  obtain ⟨q, hq, hlast⟩ := hb.arg (by rw [ht.argc]; omega) hz
  have hchar : z.headD 0 = 38 ↔ z.head? = some 38 := by cases z <;> simp
  have hargc : ¬ t.argc = 0 := by rw [ht.argc]; omega
  rw [Parse.finish, if_neg (by simp [h.mode, hmode]), hset, ok_bind, if_neg hargc, hq₀, ok_bind,
    hcommand, ok_bind]
  simp only [hq, ok_bind, Buffer.load_of_string hlast, hchar]
  split_ifs with hbg
  · rw [hl] at hb
    obtain ⟨t', hset', hbuiltin, ht'⟩ := hb.pop (by omega)
    exact ⟨t', hbuiltin, by simp only [hset', ok_bind]; rfl, ht'⟩
  · exact ⟨_, rfl, rfl, hb⟩

theorem Reads.nothing (b : Buffer MAXLINE_TSH) (token : CmdlineTokens) :
    Reads [] ⟨0, .ST_NORMAL,
      { token with _buf := b, argc := 0, infile := none, outfile := none }⟩ .empty :=
  ⟨List.nil_prefix, rfl, rfl, fun _ _ h => by simp [Line.empty] at h, .none, .none⟩

/-- The loop of a call reads the tokens of its line, as far as the buffer has room for it. -/
theorem parseline_ends {cmdline : Bytes} {ts : List Lexeme} (verbose : Bool)
    (token : CmdlineTokens) (h : Lexes ((cstr cmdline).take (MAXLINE_TSH - 1)) ts) :
    ∃ endbuf p, Ends endbuf p (Line.empty.scan ts) ∧
      ∀ fuel, parseline verbose (some cmdline) token fuel =
        scanLoop endbuf fuel p >>= Scanned.result verbose := by
  obtain ⟨b, hstore, hat⟩ := Buffer.strncpy_terminated (s := cmdline) (by decide : 0 < MAXLINE_TSH)
  have hlen : b.strlen 0 = .ok ((cstr cmdline).take (MAXLINE_TSH - 1)).length := hat.strlen
  refine ⟨_, _, h.ends ⟨rfl, rfl, hat⟩ (Reads.nothing b token) (by decide), fun fuel => ?_⟩
  simp only [parseline, hstore, ok_bind, hlen, Nat.zero_add]

theorem parseline_fails {cmdline : Bytes} {ts : List Lexeme} {m : String} (verbose : Bool)
    (token : CmdlineTokens)
    (h : Lexes ((cstr cmdline).take (MAXLINE_TSH - 1)) ts)
    (hscan : Line.empty.scan ts = .error m) :
    ∃ t, Converges (fun fuel => parseline verbose (some cmdline) token fuel)
      ⟨.PARSELINE_ERROR, t, if verbose then m else ""⟩ := by
  obtain ⟨endbuf, p, hends, hrun⟩ := parseline_ends verbose token h
  rw [hscan] at hends
  obtain ⟨t, N, hN⟩ := hends
  refine ⟨t, N, fun fuel hfuel => (hrun fuel).trans ?_⟩
  have hloop : scanLoop endbuf fuel p = .ok (.failed t m) := hN fuel hfuel
  rw [hloop, ok_bind, Scanned.result]

theorem parseline_reads {cmdline : Bytes} {ts : List Lexeme} (verbose : Bool)
    (token : CmdlineTokens)
    (h : Lexes ((cstr cmdline).take (MAXLINE_TSH - 1)) ts) (hscan : Line.empty.scan ts = .ok l) :
    ∃ p done, Reads done p l ∧ ∀ r, p.finish = .ok r →
      Converges (fun fuel => parseline verbose (some cmdline) token fuel) r := by
  obtain ⟨endbuf, p, hends, hrun⟩ := parseline_ends verbose token h
  rw [hscan] at hends
  obtain ⟨p', done, ⟨N, hN⟩, hread⟩ := hends
  refine ⟨p', done, hread, fun r hr => ⟨N, fun fuel hfuel => (hrun fuel).trans ?_⟩⟩
  have hloop : scanLoop endbuf fuel p = .ok (.left p') := hN fuel hfuel
  rw [hloop, ok_bind, Scanned.result, hr]

end Labs.Shell
