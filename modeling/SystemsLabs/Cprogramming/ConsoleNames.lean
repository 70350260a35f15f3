import SystemsLabs.Cprogramming.Console

/-! @lab cprogramminglab | file:console.c (add_cmd, add_param, get_int) | structure:sorted lists, numbers |
    main results:the newest of a name is found, what numbers `option` takes

    The lists of commands and parameters are kept sorted by `strcmp`, and an element goes before those
    that have its name already: what is found under a name is what was added last. `get_int` takes a
    `long` and cuts it to an `int`; only the lowest `long`, which is also what `strtol` gives for
    everything below, is refused. -/

namespace Labs.Cmdline
open Schemes

/-! ### Names -/

section Names
variable {α : Type} {name : α → Bytes} {ele : α}

/-- `strcmp` orders as the lists are ordered. -/
theorem after_iff : ∀ {s t : Bytes}, after s t = true ↔ t < s
  | [], t => by simp [after]
  | c :: s, [] => by simp [after]
  | c :: s, d :: t => by
      rw [after, List.cons_lt_cons_iff, Bool.or_eq_true, Bool.and_eq_true, after_iff,
        decide_eq_true_eq, decide_eq_true_eq, eq_comm]

/-- Where an element is put: between those of a lower name and the others. -/
theorem insertBy_split (name : α → Bytes) (ele : α) : ∀ l : List α, ∃ l₁ l₂, l = l₁ ++ l₂ ∧
    insertBy name ele l = l₁ ++ ele :: l₂ ∧ (∀ x ∈ l₁, name x < name ele) ∧
    ∀ x ∈ l₂.head?, name ele ≤ name x
  | [] => ⟨[], [], rfl, rfl, by simp, by simp⟩
  | x :: l => by
      by_cases h : after (name ele) (name x) = true
      · obtain ⟨l₁, l₂, hl, hins, hlow, hhigh⟩ := insertBy_split name ele l
        refine ⟨x :: l₁, l₂, by rw [hl]; rfl, by rw [insertBy, if_pos h, hins]; rfl, ?_, hhigh⟩
        intro y hy
        rcases List.mem_cons.mp hy with rfl | hy
        · exact after_iff.mp h
        · exact hlow y hy
      · refine ⟨[], x :: l, rfl, by rw [insertBy, if_neg h]; rfl, by simp, fun y hy => ?_⟩
        rw [List.head?_cons, Option.mem_some_iff] at hy
        rw [← hy]
        exact List.not_lt.mp (mt after_iff.mpr h)

theorem insertBy_perm (l : List α) : (insertBy name ele l).Perm (ele :: l) := by
  obtain ⟨l₁, l₂, hl, hins, _, _⟩ := insertBy_split name ele l
  rw [hins, hl]
  exact List.perm_middle

theorem insertBy_sorted {l : List α} (h : l.Pairwise fun x y => name x ≤ name y) :
    (insertBy name ele l).Pairwise fun x y => name x ≤ name y := by
  obtain ⟨l₁, l₂, rfl, hins, hlow, hhigh⟩ := insertBy_split name ele l
  obtain ⟨h₁, h₂, hcross⟩ := List.pairwise_append.mp h
  have habove : ∀ y ∈ l₂, name ele ≤ name y := fun y hy => by
    cases l₂ with
    | nil => cases hy
    | cons x l₂ =>
      have hx : name ele ≤ name x := hhigh x (by simp)
      rcases List.mem_cons.mp hy with rfl | hy
      · exact hx
      · exact List.le_trans hx ((List.pairwise_cons.mp h₂).1 y hy)
  rw [hins, List.pairwise_append, List.pairwise_cons]
  refine ⟨h₁, ⟨habove, h₂⟩, fun x hx y hy => ?_⟩
  rcases List.mem_cons.mp hy with rfl | hy
  · exact List.le_of_lt (hlow x hx)
  · exact hcross x hx y hy

/-- The new element is found under its name, and the others as before. -/
theorem find_insertBy (n : Bytes) (l : List α) :
    (insertBy name ele l).find? (name · = n) =
      if name ele = n then some ele else l.find? (name · = n) := by
  obtain ⟨l₁, l₂, rfl, hins, hlow, _⟩ := insertBy_split name ele l
  rw [hins, List.find?_append, List.find?_append]
  split
  · rename_i hname
    have hnone : l₁.find? (name · = n) = none := by
      rw [List.find?_eq_none]
      intro x hx hfound
      exact absurd (hlow x hx) (by rw [of_decide_eq_true hfound, hname]; exact List.lt_irrefl n)
    rw [hnone, List.find?_cons_of_pos (by simpa using hname)]
    rfl
  · rename_i hname
    rw [List.find?_cons_of_neg (by simpa using hname)]

/-- After any calls of `add_cmd` or `add_param` the list is sorted by name, has what was added and
    nothing else, and what it has under a name is what was added last under it. -/
theorem added_found (name : α → Bytes) (eles : List α) :
    (eles.foldl (fun l ele => insertBy name ele l) []).Pairwise (fun x y => name x ≤ name y) ∧
    (eles.foldl (fun l ele => insertBy name ele l) []).Perm eles ∧
    ∀ n, (eles.foldl (fun l ele => insertBy name ele l) []).find? (name · = n) =
      eles.reverse.find? (name · = n) := by
  induction eles using List.reverseRecOn with
  | nil => simp
  | append_singleton eles ele ih =>
    obtain ⟨hsorted, hperm, hfind⟩ := ih
    rw [List.foldl_append]
    refine ⟨insertBy_sorted hsorted, ?_, fun n => ?_⟩
    · exact ((insertBy_perm _).trans (hperm.cons ele)).trans (List.perm_append_singleton ele eles).symm
    · rw [List.foldl_cons, List.foldl_nil, find_insertBy, hfind, List.reverse_append]
      by_cases hname : name ele = n <;> simp [hname]

end Names

section Lists
variable {ι U : Type}

/-- A call of `add_cmd` or `add_param`. -/
def Globals.add (g : Globals ι U) : CmdEle ι ⊕ ParamEle ι → Except Stop (Globals ι U)
  | .inl ele => g.add_cmd ele
  | .inr ele => g.add_param ele

/-- The calls do not get in each other's way. -/
theorem adds_split : ∀ (calls : List (CmdEle ι ⊕ ParamEle ι)) {g : Globals ι U}
    {cl : List (CmdEle ι)} {pl : List (ParamEle ι)}, g.cmd_list = some cl → g.param_list = some pl →
    calls.foldlM Globals.add g = .ok { g with
      cmd_list := some ((calls.filterMap Sum.getLeft?).foldl (fun l ele => insertBy CmdEle.name ele l) cl)
      param_list := some
        ((calls.filterMap Sum.getRight?).foldl (fun l ele => insertBy ParamEle.name ele l) pl) }
  | [], g, cl, pl, hcl, hpl => by
      simp only [List.filterMap_nil, List.foldl_nil, ← hcl, ← hpl]
      rfl
  | .inl ele :: calls, g, cl, pl, hcl, hpl => by
      have hadd : g.add (.inl ele) = .ok { g with cmd_list := some (insertBy CmdEle.name ele cl) } := by
        rw [Globals.add, Globals.add_cmd, Globals.commands, hcl]
        rfl
      rw [List.foldlM_cons, hadd, ok_bind]
      exact adds_split calls rfl hpl
  | .inr ele :: calls, g, cl, pl, hcl, hpl => by
      have hadd : g.add (.inr ele) =
          .ok { g with param_list := some (insertBy ParamEle.name ele pl) } := by
        rw [Globals.add, Globals.add_param, Globals.params, hpl]
        rfl
      rw [List.foldlM_cons, hadd, ok_bind]
      exact adds_split calls hcl rfl

/-- Whatever a program adds behind `init_cmd`, in whatever order, the lists are sorted, they hold what
    was added and what was there from the start, and a name stands for what was added last under it. -/
theorem init_cmd_found (user : U) (calls : List (CmdEle ι ⊕ ParamEle ι)) :
    ∃ cl pl, calls.foldlM Globals.add (init_cmd user) =
        .ok { init_cmd user with cmd_list := some cl, param_list := some pl } ∧
      (cl.Pairwise (fun x y => x.name ≤ y.name) ∧
        cl.Perm (builtinCmds ++ calls.filterMap Sum.getLeft?) ∧
        ∀ n, cl.find? (·.name = n) =
          (builtinCmds ++ calls.filterMap Sum.getLeft?).reverse.find? (·.name = n)) ∧
      (pl.Pairwise (fun x y => x.name ≤ y.name) ∧
        pl.Perm (builtinParams ++ calls.filterMap Sum.getRight?) ∧
        ∀ n, pl.find? (·.name = n) =
          (builtinParams ++ calls.filterMap Sum.getRight?).reverse.find? (·.name = n)) := by
  have hcmds := added_found CmdEle.name (builtinCmds ++ calls.filterMap Sum.getLeft?)
  have hparams := added_found ParamEle.name (builtinParams ++ calls.filterMap Sum.getRight?)
  rw [List.foldl_append] at hcmds hparams
  exact ⟨_, _, adds_split calls rfl rfl, hcmds, hparams⟩

end Lists

/-! ### Numbers -/

/-- The base is 10 for all numbers but 0, where it does not matter. -/
theorem baseOf_numeral (n : ℕ) : baseOf (numeral 10 n) = if n = 0 then 8 else 10 := by
  by_cases hn : n = 0
  · subst hn
    rfl
  · have hhead : (numeral 10 n).head? ≠ some 48 := numeral_head (by decide) (by decide) hn
    rw [baseOf, if_neg (fun h => hhead h.1), if_neg hhead, if_neg hn]

/-- Digits in the base that their prefix shows, behind a minus or not. -/
theorem strtol_digits {t : Bytes} (ht : Digits (baseOf t) t) (hbase : baseOf t < 16) (neg : Bool) :
    strtol ((if neg then [45] else []) ++ t) = (toLong neg (digitsNat (baseOf t) t), []) := by
  have hnone : NoDigit (baseOf t) [] := fun c hc => by cases hc
  obtain ⟨htake, hdrop⟩ := takeWhile_digits ht.2 hnone
  rw [List.append_nil] at htake hdrop
  obtain ⟨d, ds, hd⟩ := List.exists_cons_of_ne_nil ht.1
  obtain ⟨hspace, hminus, hplus, _⟩ := digitOf_plain ((ht.2 d (by simp [hd])).trans hbase)
  have hten : ¬ baseOf t = 16 := by omega
  cases neg with
  | true =>
    have hskip : ((if true then [45] else []) ++ t : Bytes).dropWhile isspace = 45 :: t := rfl
    have hsign : skipSign (45 :: t) = t := rfl
    rw [strtol, hskip]
    simp only [hsign, if_neg hten, htake, hdrop, if_neg ht.1]
    rfl
  | false =>
    have hskip : ((if false then [45] else []) ++ t : Bytes).dropWhile isspace = t := by
      rw [hd]
      simp [hspace]
    have hhead : t.head? ≠ some 45 ∧ t.head? ≠ some 43 := by
      rw [hd]
      simp [hminus, hplus]
    have hsign : skipSign t = t := by rw [skipSign, if_neg (not_or.mpr hhead)]
    rw [strtol, hskip]
    simp only [hsign, if_neg hten, htake, hdrop, if_neg ht.1, hhead.1, decide_false]

/-- What `get_int` makes of the decimal text of a number. The text of a number that is no `long` is
    cut to -1, or refused below; a `long` that is no `int` is cut to its low 32 bits. -/
theorem get_int_numeral (v : ℤ) : get_int (intNumeral 10 v) =
    if v ≤ -2 ^ 63 then none
    else if 2 ^ 63 ≤ v then some (-1)
    else some (v.bmod (2 ^ 32)) := by
  obtain ⟨hdigits, hvalue⟩ := numeral_digits v.natAbs
  have hbase : Digits (baseOf (numeral 10 v.natAbs)) (numeral 10 v.natAbs) ∧
      baseOf (numeral 10 v.natAbs) < 16 ∧
      digitsNat (baseOf (numeral 10 v.natAbs)) (numeral 10 v.natAbs) = v.natAbs := by
    rw [baseOf_numeral]
    by_cases hv : v.natAbs = 0
    · rw [hv]
      exact ⟨by decide, by decide, rfl⟩
    · rw [if_neg hv]
      exact ⟨hdigits, by decide, hvalue⟩
  have hlong := strtol_digits hbase.1 hbase.2.1 (decide (v < 0))
  have htext : (if decide (v < 0) = true then [45] else []) ++ numeral 10 v.natAbs = intNumeral 10 v := by
    rw [intNumeral]
    by_cases hv : v < 0 <;> simp [hv]
  have habs : (if decide (v < 0) = true then -(v.natAbs : ℤ) else v.natAbs) = v := by
    by_cases hv : v < 0
    · rw [if_pos (decide_eq_true hv)]
      omega
    · rw [if_neg (by simpa using hv)]
      omega
  rw [htext, hbase.2.2, toLong, habs] at hlong
  rw [get_int, hlong]
  by_cases hlow : v ≤ -2 ^ 63
  · have hmin : max (-2 ^ 63) (min (2 ^ 63 - 1) v) = -2 ^ 63 := by omega
    simp only [hmin, true_or, if_true, if_pos hlow]
  · rw [if_neg hlow]
    by_cases hhigh : 2 ^ 63 ≤ v
    · have hmax : max (-2 ^ 63) (min (2 ^ 63 - 1) v) = 2 ^ 63 - 1 := by omega
      simp only [hmax, if_pos hhigh]
      rfl
    · have hsame : max (-2 ^ 63) (min (2 ^ 63 - 1) v) = v := by omega
      have hne : ¬ (v = -2 ^ 63 ∨ ([] : Bytes) ≠ []) := by
        rintro (h | h)
        · exact hlow h.le
        · exact h rfl
      simp only [hsame, if_neg hne, if_neg hhigh]

end Labs.Cmdline
