import SystemsLabs.Schemes.Cuts
import SystemsLabs.Schemes.Words

/-! @lab cprogramminglab | file:console.c (parse_args) | structure:two passes over a buffer |
    main result:when the words are those of the line

    The first pass copies the words behind each other, each ended with a NUL where white space ends
    it; the second takes as many strings from the copy as words were counted. The copy has room for
    the line and one byte more, and nobody writes a NUL behind a word that the line ends with. What
    the block held when it was allocated is a parameter. -/

namespace Labs.Cmdline
open Schemes
variable {n k : ℕ} {buf : Buffer n} {pre line junk : List UInt8}

/-- The first loop of `parse_args`. -/
def copyWords : List UInt8 → Buffer n → ℕ → Bool → ℕ → Except Stop (Buffer n × ℕ)
  | [], buf, _, _, argc => .ok (buf, argc)
  | c :: src, buf, dst, skipping, argc =>
    if isspace c then
      if skipping then copyWords src buf dst true argc
      else do
        let buf ← buf.store dst 0
        copyWords src buf (dst + 1) true argc
    else do
      let buf ← buf.store dst c
      copyWords src buf (dst + 1) false (if skipping then argc + 1 else argc)

/-- The second loop, `strsave_or_fail(src)` for each word. -/
def assemble (buf : Buffer n) : ℕ → ℕ → Except Stop (List (List UInt8))
  | 0, _ => .ok []
  | k + 1, src => do
    let arg ← buf.string src
    let argv ← assemble buf k (src + (arg.length + 1))
    .ok (arg :: argv)

/-- `parse_args` of a string, in a block as `malloc` gave it. -/
def parse_args (line : List UInt8) (block : Buffer (line.length + 1)) :
    Except Stop (List (List UInt8)) := do
  let (buf, argc) ← copyWords line block 0 true 0
  assemble buf argc 0

/-! ### The first pass -/

/-- What is written for fields that start between words. -/
def packed : List (List UInt8) → List UInt8
  | [] => []
  | [f] => f
  | f :: g :: fs => if f = [] then packed (g :: fs) else f ++ 0 :: packed (g :: fs)

/-- What is written for the line from here on, between words (`skipping`) or inside one. -/
def copied (skipping : Bool) (s : List UInt8) : List UInt8 :=
  if skipping then packed (fields s)
  else match fields s with
    | [] => []
    | [f] => f
    | f :: fs => f ++ 0 :: packed fs

/-- How many words start from here on. -/
def counted (skipping : Bool) (s : List UInt8) : ℕ :=
  if skipping then (words s).length else ((fields s).tail.filter (· ≠ [])).length

section Copied
variable {c : UInt8} {s : List UInt8}

theorem copied_skip (hc : isspace c = true) : copied true (c :: s) = copied true s := by
  obtain ⟨f, fs, hf⟩ := fields_cases s
  simp only [copied, if_true, fields_space hc, hf, packed]

theorem copied_end (hc : isspace c = true) : copied false (c :: s) = 0 :: copied true s := by
  obtain ⟨f, fs, hf⟩ := fields_cases s
  simp [copied, fields_space hc, hf]

theorem copied_word (hc : ¬ isspace c = true) (skipping : Bool) :
    copied skipping (c :: s) = c :: copied false s := by
  obtain ⟨f, fs, hf⟩ := fields_cases s
  cases fs with
  | nil => cases skipping <;> simp [copied, fields_word hc hf, hf, packed]
  | cons g fs => cases skipping <;> simp [copied, fields_word hc hf, hf, packed]

theorem counted_space (hc : isspace c = true) (skipping : Bool) :
    counted skipping (c :: s) = counted true s := by
  cases skipping <;> simp [counted, words, fields_space hc]

theorem counted_word (hc : ¬ isspace c = true) (skipping : Bool) :
    counted skipping (c :: s) = (if skipping then 1 else 0) + counted false s := by
  obtain ⟨f, fs, hf⟩ := fields_cases s
  cases skipping <;> simp [counted, words, fields_word hc hf, hf, Nat.add_comm]

end Copied

/-- The copy is written behind what is there, and the words are counted. -/
theorem copyWords_spec : ∀ (s : List UInt8) {pre rest : List UInt8} {buf : Buffer n}
    (skipping : Bool) (argc : ℕ), buf.bytes = pre ++ rest → s.length ≤ rest.length →
    ∃ buf', copyWords s buf pre.length skipping argc = .ok (buf', argc + counted skipping s) ∧
      buf'.bytes = pre ++ copied skipping s ++ rest.drop (copied skipping s).length
  | [], pre, rest, buf, skipping, argc, hbytes, _ => by
      cases skipping <;> exact ⟨buf, rfl, by simpa [copied, fields, packed] using hbytes⟩
  | c :: s, pre, [], buf, skipping, argc, _, hlen => absurd hlen (by simp)
  | c :: s, pre, r :: rest, buf, skipping, argc, hbytes, hlen => by
      rw [List.length_cons, List.length_cons] at hlen
      have hstep : ∀ d, ∃ buf₁, buf.store pre.length d = .ok buf₁ ∧
          buf₁.bytes = (pre ++ [d]) ++ rest := fun d => by
        obtain ⟨buf₁, hstore, hbytes₁⟩ := Buffer.store_mid d hbytes rfl
        exact ⟨buf₁, hstore, by simpa using hbytes₁⟩
      have hlength : ∀ d : UInt8, pre.length + 1 = (pre ++ [d]).length := fun d => by simp
      rw [copyWords]
      by_cases hc : isspace c = true
      · rw [if_pos hc, counted_space hc]
        cases skipping with
        | true =>
          rw [if_pos rfl, copied_skip hc]
          exact copyWords_spec s true argc hbytes (by rw [List.length_cons]; omega)
        | false =>
          obtain ⟨buf₁, hstore, hbytes₁⟩ := hstep 0
          obtain ⟨buf', hrun, hbytes'⟩ := copyWords_spec s true argc hbytes₁ (by omega)
          refine ⟨buf', ?_, by rw [copied_end hc]; simpa using hbytes'⟩
          rw [if_neg Bool.false_ne_true, hstore, ok_bind, hlength 0]
          exact hrun
      · obtain ⟨buf₁, hstore, hbytes₁⟩ := hstep c
        obtain ⟨buf', hrun, hbytes'⟩ := copyWords_spec s false
          (if skipping then argc + 1 else argc) hbytes₁ (by omega)
        refine ⟨buf', ?_, by rw [copied_word hc]; simpa using hbytes'⟩
        rw [if_neg hc, hstore, ok_bind, hlength c, hrun, counted_word hc]
        cases skipping <;> simp [Nat.add_assoc]

/-! ### The second pass -/

/-- A copy in which all words are ended is the words, each with its NUL. -/
theorem packed_closed : ∀ fs : List (List UInt8), fs ≠ [] →
    packed fs ++ (if fs.getLast? = some [] then [] else [0]) =
      (fs.filter (· ≠ [])).flatMap (· ++ [0])
  | [], h => absurd rfl h
  | [f], _ => by
      by_cases hf : f = [] <;> simp [packed, hf]
  | f :: g :: fs, _ => by
      have ih := packed_closed (g :: fs) (List.cons_ne_nil g fs)
      rw [packed, List.getLast?_cons_cons]
      by_cases hf : f = []
      · rw [if_pos hf, ih, hf]
        rfl
      · have hkeep : (f :: g :: fs).filter (· ≠ []) = f :: (g :: fs).filter (· ≠ []) :=
          List.filter_cons_of_pos (by simpa using hf)
        rw [if_neg hf, List.append_assoc, List.cons_append, ih, hkeep, List.flatMap_cons,
          List.append_assoc]
        rfl

/-- Strings that stand behind each other, each with its NUL, are taken one after the other. -/
theorem assemble_spec : ∀ {ws : List (List UInt8)} {pre rest : List UInt8} {buf : Buffer n},
    buf.bytes = pre ++ ws.flatMap (· ++ [0]) ++ rest → (∀ w ∈ ws, 0 ∉ w) →
    assemble buf ws.length pre.length = .ok ws
  | [], _, _, _, _, _ => rfl
  | w :: ws, pre, rest, buf, hbytes, hnul => by
      have hw : 0 ∉ w := hnul w List.mem_cons_self
      have hat : buf.At pre w := ⟨⟨ws.flatMap (· ++ [0]) ++ rest, by simpa using hbytes⟩, hw⟩
      have hnext : buf.bytes = (pre ++ (w ++ [0])) ++ ws.flatMap (· ++ [0]) ++ rest := by
        simpa using hbytes
      have hrest := assemble_spec hnext fun v hv => hnul v (List.mem_cons_of_mem w hv)
      rw [List.length_append, List.length_append, List.length_singleton] at hrest
      rw [List.length_cons, assemble, hat.string, ok_bind, hrest]
      rfl

/-- With no NUL behind the last word, looking for its end leaves the block. -/
theorem assemble_fault : ∀ {ws : List (List UInt8)} {pre tail : List UInt8} {buf : Buffer n},
    buf.bytes = pre ++ ws.flatMap (· ++ [0]) ++ tail → (∀ w ∈ ws, 0 ∉ w) → 0 ∉ tail →
    assemble buf (ws.length + 1) pre.length = .error .fault
  | [], pre, tail, buf, hbytes, _, htail => by
      have hstring : buf.string pre.length = .error .fault := by
        have hbytes' : buf.bytes = pre ++ tail := by simpa using hbytes
        rw [Buffer.string, hbytes', List.drop_left, if_neg htail]
      rw [List.length_nil, assemble, hstring]
      rfl
  | w :: ws, pre, tail, buf, hbytes, hnul, htail => by
      have hw : 0 ∉ w := hnul w List.mem_cons_self
      have hat : buf.At pre w := ⟨⟨ws.flatMap (· ++ [0]) ++ tail, by simpa using hbytes⟩, hw⟩
      have hnext : buf.bytes = (pre ++ (w ++ [0])) ++ ws.flatMap (· ++ [0]) ++ tail := by
        simpa using hbytes
      have hrest := assemble_fault hnext (fun v hv => hnul v (List.mem_cons_of_mem w hv)) htail
      rw [List.length_append, List.length_append, List.length_singleton] at hrest
      rw [List.length_cons, assemble, hat.string, ok_bind, hrest]
      rfl

/-! ### Both passes -/

theorem words_not_nul (hnul : 0 ∉ line) : ∀ w ∈ words line, 0 ∉ w :=
  fun _ hw h0 => hnul ((mem_words hw).2 0 h0).1

theorem copied_length (block : Buffer (line.length + 1)) :
    ∃ buf, copyWords line block 0 true 0 = .ok (buf, (words line).length) ∧
      buf.bytes = packed (fields line) ++ block.bytes.drop (packed (fields line)).length := by
  obtain ⟨buf, hrun, hbytes⟩ := copyWords_spec line true 0 (List.nil_append block.bytes).symm
    (by rw [block.size]; omega)
  exact ⟨buf, by simpa [counted] using hrun, hbytes⟩

theorem parse_args_words (hnul : 0 ∉ line) (hclosed : Closed line)
    (block : Buffer (line.length + 1)) : parse_args line block = .ok (words line) := by
  obtain ⟨buf, hrun, hbytes⟩ := copied_length block
  have hpacked := packed_closed (fields line) fields_ne_nil
  rw [if_pos ((closed_iff line).mp hclosed), List.append_nil] at hpacked
  rw [hpacked, ← words] at hbytes
  have hwords : assemble buf (words line).length ([] : List UInt8).length = .ok (words line) :=
    assemble_spec (by rw [List.nil_append]; exact hbytes) (words_not_nul hnul)
  rw [parse_args, hrun, ok_bind]
  exact hwords

/-- `parse_args` gives the words of the line, whatever the block held, if and only if the line ends
    with white space or is empty. -/
theorem parse_args_iff (line : List UInt8) (hnul : 0 ∉ line) :
    (∀ block, parse_args line block = .ok (words line)) ↔ Closed line := by
  refine ⟨fun h => ?_, fun h block => parse_args_words hnul h block⟩
  by_contra hopen
  -- A block without a NUL: the end of the last word is not found.
  have hsize : (List.replicate (line.length + 1) (1 : UInt8)).length = line.length + 1 :=
    List.length_replicate
  obtain ⟨buf, hrun, hbytes⟩ := copied_length ⟨List.replicate (line.length + 1) 1, hsize⟩
  have hpacked := packed_closed (fields line) fields_ne_nil
  rw [if_neg (mt (closed_iff line).mpr hopen), ← words] at hpacked
  rcases List.eq_nil_or_concat (words line) with hnone | ⟨ws, w, hws⟩
  · rw [hnone] at hpacked
    simp at hpacked
  · rw [hws, List.concat_eq_append, List.flatMap_append, List.flatMap_singleton,
      ← List.append_assoc] at hpacked
    have hmem : ∀ v ∈ ws ++ [w], 0 ∉ v := fun v hv =>
      words_not_nul hnul v (by rw [hws, List.concat_eq_append]; exact hv)
    have hones : (0 : UInt8) ∉ (List.replicate (line.length + 1) (1 : UInt8)).drop
        (packed (fields line)).length := fun h0 => by
      have hone := List.eq_of_mem_replicate (List.mem_of_mem_drop h0)
      exact absurd hone (by decide)
    have hlast : 0 ∉ w ++ (List.replicate (line.length + 1) (1 : UInt8)).drop
        (packed (fields line)).length := by
      rw [List.mem_append, not_or]
      exact ⟨hmem w (by simp), hones⟩
    have hfault : assemble buf (ws.length + 1) ([] : List UInt8).length = .error .fault := by
      refine assemble_fault ?_ (fun v hv => hmem v (List.mem_append_left _ hv)) hlast
      rw [hbytes, List.append_cancel_right hpacked, List.nil_append, List.append_assoc]
    have hbad := h ⟨List.replicate (line.length + 1) 1, hsize⟩
    have hlen : (words line).length = ws.length + 1 := by
      rw [hws, List.concat_eq_append, List.length_append, List.length_singleton]
    rw [parse_args, hrun, ok_bind, hlen] at hbad
    cases hfault.symm.trans hbad

/-- `ih bear` and a new line. -/
theorem parse_args_insert : (∀ block, parse_args [105, 104, 32, 98, 101, 97, 114, 10] block =
    .ok (words [105, 104, 32, 98, 101, 97, 114, 10])) ↔
      Closed [105, 104, 32, 98, 101, 97, 114, 10] :=
  parse_args_iff [105, 104, 32, 98, 101, 97, 114, 10] (by decide)

end Labs.Cmdline
