import Munix.Kernel.Kshell

/-!
# Munix — command lines

`sh_break_cmdline` splits a command line in place. It overwrites the spaces in the
line by NULs and stores pointers into it; `shBreakCmdline` gives the argument lists
that these pointers stand for.

* `breakLoop_eq` — the argument list is the list of `words`: what comes from the
  first graphic character on in each run of characters that are no spaces.
* `breakGo_spec` — the loop on the line in memory, from any point of the line on.
* **`shBreakCmdline_splits`** — the function, for every line and every array size.
-/

namespace Munix

-- ---------------------------------------------------------------------------
-- kshell.c
-- ---------------------------------------------------------------------------

/-- The variables of `sh_break_cmdline`. Pointers into the line are offsets, and NULL is `none`. -/
structure BreakVars where
  /-- the storage of the line -/
  line    : List Byte
  /-- `cmdline`, which moves along the line -/
  cmdline : Nat
  argv    : Nat → Option Nat
  argc    : Nat
  inword  : Bool

/-- The loop body for the character `ch`; an error is the return of `-E2BIG`. -/
def breakBody (argn : Nat) (ch : Byte) (v : BreakVars) : Except BreakVars BreakVars :=
  let v := if isspace ch then { v with line := v.line.set v.cmdline 0#8, inword := false } else v
  if isgraph ch then
    if !v.inword then
      if v.argc < argn - 1 then
        .ok { v with
          argv := Function.update v.argv v.argc (some v.cmdline), argc := v.argc + 1, inword := true }
      else .error v
    else .ok { v with inword := true }
  else .ok v

/-- The loop and what follows it. `argc` is returned as it is: there are not so many pointers in an
array that it would not fit an `int`. -/
def breakGo (argn : Nat) : Nat → BreakVars → Option (Int × BreakVars)
  | 0, _ => none
  | fuel + 1, v =>
    let ch := v.line.getD v.cmdline 0#8
    if ch = 0#8 then some (v.argc, { v with argv := Function.update v.argv v.argc none })
    else
      match breakBody argn ch v with
      | .error v => some (-E2BIG, v)
      | .ok v => breakGo argn fuel { v with cmdline := v.cmdline + 1 }

/-- `sh_break_cmdline(cmdline, argv, argn)`, with the line at the beginning of its storage. -/
def shBreakCmdlineMem (argn fuel : Nat) (line : List Byte) (argv : Nat → Option Nat) :
    Option (Int × BreakVars) :=
  breakGo argn fuel ⟨line, 0, argv, 0, false⟩

-- ---------------------------------------------------------------------------
-- Words
-- ---------------------------------------------------------------------------

/-- What is left of the runs that have a graphic character, from there on. -/
def wordsOf (runs : List (List Byte)) : List (List Byte) :=
  (runs.filter fun run => run.any isgraph).map fun run => run.dropWhile fun c => !isgraph c

/-- The words of a line: its runs of characters other than spaces, each from its first graphic
character on. -/
def words (line : List Byte) : List (List Byte) := wordsOf (line.splitOnP isspace)

example : words (bytes " ls\t\x01-l ") = [bytes "ls", bytes "-l"] := by decide

theorem isspace_of_isgraph {c : Byte} (h : isgraph c = true) : isspace c = false := by
  revert c
  decide +kernel

theorem isgraph_of_isspace {c : Byte} (h : isspace c = true) : isgraph c = false := by
  by_contra hg
  rw [isspace_of_isgraph (by simpa using hg)] at h
  cases h

/-- The first run, and what there is behind it. -/
theorem splitOnP_eq_takeWhile (p : Byte → Bool) (l : List Byte) :
    l.splitOnP p = l.takeWhile (fun c => !p c) ::
      match l.dropWhile fun c => !p c with
      | [] => []
      | _ :: rest => rest.splitOnP p := by
  induction l with
  | nil => rfl
  | cons c l ih =>
    rw [List.splitOnP_cons_eq_if_modifyHead]
    by_cases hc : p c = true
    · simp [hc]
    · rw [if_neg hc, ih]
      simp [hc]

theorem words_cons_space {c : Byte} (rest : List Byte) (hc : isspace c = true) :
    words (c :: rest) = words rest := by
  rw [words, List.splitOnP_cons_eq_if_modifyHead, if_pos hc]
  rfl

/-- A character that is neither a space nor graphic, outside a word. -/
theorem words_cons_other {c : Byte} (rest : List Byte) (hs : isspace c = false) (hg : isgraph c = false) :
    words (c :: rest) = words rest := by
  rw [words, words, List.splitOnP_cons_eq_if_modifyHead, if_neg (by simp [hs]), splitOnP_eq_takeWhile]
  simp [wordsOf, List.filter_cons, hg]
  split <;> simp [hg]

/-- The first character of a word. -/
theorem words_cons_graph {c : Byte} (rest : List Byte) (hg : isgraph c = true) :
    words (c :: rest) =
      ((c :: rest).takeWhile fun c => !isspace c) :: words (rest.dropWhile fun c => !isspace c) := by
  have hs := isspace_of_isgraph hg
  rw [words, List.splitOnP_cons_eq_if_modifyHead, if_neg (by simp [hs]), splitOnP_eq_takeWhile, List.modifyHead_cons]
  have hword : ∀ runs, wordsOf ((c :: rest.takeWhile fun c => !isspace c) :: runs) =
      (c :: rest.takeWhile fun c => !isspace c) :: wordsOf runs := by
    intro runs
    simp [wordsOf, hg]
  rw [hword, List.takeWhile_cons, if_pos (by simp [hs])]
  congr 1
  -- the space behind the word begins an empty run
  cases hrest : rest.dropWhile fun c => !isspace c with
  | nil => rfl
  | cons s rest' =>
    have hspace : isspace s = true := by
      have := List.head_dropWhile_not (fun c => !isspace c) (l := rest) (by simp [hrest])
      simpa [hrest] using this
    exact (words_cons_space rest' hspace).symm

-- ---------------------------------------------------------------------------
-- Arguments are words
-- ---------------------------------------------------------------------------

/-- The words that begin in `line`, from the inside of a word or from outside. -/
def wordsFrom (inword : Bool) (line : List Byte) : List (List Byte) :=
  if inword then words (line.dropWhile fun c => !isspace c) else words line

theorem wordsFrom_cons_space {c : Byte} (inword : Bool) (rest : List Byte) (hc : isspace c = true) :
    wordsFrom inword (c :: rest) = wordsFrom false rest := by
  cases inword <;> simp [wordsFrom, hc, words_cons_space]

theorem wordsFrom_cons_inword {c : Byte} (rest : List Byte) (hc : isspace c = false) :
    wordsFrom true (c :: rest) = wordsFrom true rest := by
  simp [wordsFrom, hc]

/-- The arguments are the words, if there are not too many of them. -/
theorem breakLoop_eq {argn : Nat} (line : List Byte) (inword : Bool) {argc : Nat} (hargc : argc ≤ argn - 1) :
    breakLoop argn line inword argc =
      if argc + (wordsFrom inword line).length ≤ argn - 1 then some (wordsFrom inword line) else none := by
  induction line generalizing inword argc with
  | nil =>
    have hnil : wordsFrom inword [] = [] := by cases inword <;> rfl
    rw [breakLoop, hnil, if_pos (by simpa using hargc)]
  | cons c rest ih =>
    rw [breakLoop]
    cases hs : isspace c with
    | true =>
      have hg : isgraph c = false := isgraph_of_isspace hs
      simp only [hg, Bool.false_eq_true, if_false, if_true]
      rw [ih false hargc, wordsFrom_cons_space inword rest hs]
    | false =>
      simp only [Bool.false_eq_true, if_false]
      cases inword with
      | true =>
        rw [wordsFrom_cons_inword rest hs]
        simp only [if_true]
        split <;> exact ih true hargc
      | false =>
        cases hg : isgraph c with
        | false =>
          have hskip : wordsFrom false (c :: rest) = wordsFrom false rest := words_cons_other rest hs hg
          simp only [Bool.false_eq_true, if_false]
          rw [hskip, ih false hargc]
        | true =>
          have hword : wordsFrom false (c :: rest) =
              ((c :: rest).takeWhile fun c => !isspace c) :: wordsFrom true rest := words_cons_graph rest hg
          simp only [if_true, Bool.false_eq_true, if_false]
          rw [hword, List.length_cons]
          by_cases hroom : argc < argn - 1
          · rw [if_pos hroom, ih true hroom]
            by_cases hfit : argc + 1 + (wordsFrom true rest).length ≤ argn - 1
            · rw [if_pos hfit, if_pos (by omega), Option.map_some]
            · rw [if_neg hfit, if_neg (by omega), Option.map_none]
          · rw [if_neg hroom, if_neg (by omega)]

/-- `sh_break_cmdline` as a function on argument lists. -/
theorem shBreakCmdline_eq (line : List Byte) (argn : Nat) :
    shBreakCmdline line argn = if (words line).length ≤ argn - 1 then some (words line) else none := by
  have h := breakLoop_eq line false (Nat.zero_le (argn - 1))
  rwa [Nat.zero_add] at h

/-- An argument is no longer than the line. -/
theorem length_le_of_breakLoop {argn : Nat} {line : List Byte} {inword : Bool} {argc : Nat}
    {argv : List (List Byte)} (h : breakLoop argn line inword argc = some argv) :
    ∀ arg ∈ argv, arg.length ≤ line.length := by
  induction line generalizing inword argc argv with
  | nil =>
    cases h
    simp
  | cons ch rest ih =>
    have hrest : ∀ {inword argc}, breakLoop argn rest inword argc = some argv →
        ∀ arg ∈ argv, arg.length ≤ (ch :: rest).length :=
      fun h arg harg => (ih h arg harg).trans (Nat.le_succ _)
    rw [breakLoop] at h
    generalize (if isspace ch then false else inword) = w at h
    split at h
    · split at h
      · exact hrest h
      · split at h
        · obtain ⟨argv', hargv', rfl⟩ := Option.map_eq_some_iff.mp h
          intro arg harg
          rcases List.mem_cons.mp harg with rfl | harg
          · exact List.Sublist.length_le (List.takeWhile_sublist _)
          · exact (ih hargv' arg harg).trans (Nat.le_succ _)
        · cases h
    · exact hrest h

-- ---------------------------------------------------------------------------
-- The line in memory
-- ---------------------------------------------------------------------------

/-- The line with its spaces overwritten. -/
def clearSpaces (line : List Byte) : List Byte := line.map fun c => if isspace c then 0#8 else c

/-- How the loop ends that has begun in state `v`, somewhere in `line`: with the arguments that
`breakLoop` gives, or with an error. -/
structure BreakEnd (argn : Nat) (line tail : List Byte) (v : BreakVars) (args : Option (List (List Byte)))
    (res : Int) (v' : BreakVars) : Prop where
  beyond : ∀ i, argn ≤ i → v'.argv i = v.argv i
  before : ∀ i < v.argc, v'.argv i = v.argv i
  failed : args = none → res = -E2BIG
  split  : ∀ as, args = some as → res = v.argc + as.length ∧ v'.line = clearSpaces line ++ 0#8 :: tail ∧
             v'.argv (v.argc + as.length) = none ∧
             ∀ i (hi : i < as.length), ∃ p ≤ line.length, v'.argv (v.argc + i) = some p ∧
               as[i] = (line.drop p).takeWhile fun c => !isspace c

theorem BreakEnd.of_same {argn : Nat} {line tail : List Byte} {v v₁ v' : BreakVars}
    {args : Option (List (List Byte))} {res : Int} (h : BreakEnd argn line tail v₁ args res v')
    (hargv : v₁.argv = v.argv) (hargc : v₁.argc = v.argc) : BreakEnd argn line tail v args res v' := by
  obtain ⟨hbeyond, hbefore, hfailed, hsplit⟩ := h
  rw [hargv] at hbeyond hbefore
  rw [hargc] at hbefore hsplit
  exact ⟨hbeyond, hbefore, hfailed, hsplit⟩

/-- A word that begins at the offset `p`. -/
theorem BreakEnd.word {argn : Nat} {line tail : List Byte} {v v₁ v' : BreakVars} {p : Nat}
    {args : Option (List (List Byte))} {res : Int} (h : BreakEnd argn line tail v₁ args res v')
    (hargv : v₁.argv = Function.update v.argv v.argc (some p)) (hargc : v₁.argc = v.argc + 1)
    (hroom : v.argc < argn) (hp : p ≤ line.length) :
    BreakEnd argn line tail v
      (args.map (((line.drop p).takeWhile fun c => !isspace c) :: ·)) res v' := by
  refine ⟨fun i hi => ?_, fun i hi => ?_, fun hnone => h.failed (Option.map_eq_none_iff.mp hnone), ?_⟩
  · rw [h.beyond i hi, hargv, Function.update_of_ne (by omega)]
  · rw [h.before i (by omega), hargv, Function.update_of_ne (by omega)]
  · intro as has
    obtain ⟨as', has', rfl⟩ := Option.map_eq_some_iff.mp has
    obtain ⟨hres, hline, hnull, hargs⟩ := h.split as' has'
    rw [hargc] at hres hnull hargs
    have hcount : v.argc + 1 + as'.length = v.argc + (as'.length + 1) := by omega
    rw [hcount] at hnull
    refine ⟨by rw [hres, List.length_cons]; omega, hline, hnull, fun i hi => ?_⟩
    cases i with
    | zero =>
      refine ⟨p, hp, ?_, rfl⟩
      rw [Nat.add_zero, h.before _ (by omega), hargv, Function.update_self]
    | succ i =>
      obtain ⟨q, hq, hat, hword⟩ := hargs i (by simpa using hi)
      exact ⟨q, hq, by rw [← hat]; congr 1; omega, by simpa using hword⟩

/-- The character after the part of the line that has been read. -/
theorem getD_line (pre rest : List Byte) (c : Byte) :
    (clearSpaces pre ++ c :: rest).getD pre.length 0#8 = c := by
  rw [List.getD_append_right _ _ _ _ (by simp [clearSpaces])]
  simp [clearSpaces]

/-- What the loop does from any point of the line on. -/
theorem breakGo_spec {argn : Nat} (hargn : 1 ≤ argn) {tail : List Byte} (suf : List Byte) {pre : List Byte}
    {v : BreakVars} {fuel : Nat} (hnul : 0#8 ∉ suf) (hline : v.line = clearSpaces pre ++ (suf ++ 0#8 :: tail))
    (hpos : v.cmdline = pre.length) (hargc : v.argc ≤ argn - 1) (hfuel : suf.length < fuel) :
    ∃ res v', breakGo argn fuel v = some (res, v') ∧
      BreakEnd argn (pre ++ suf) tail v (breakLoop argn suf v.inword v.argc) res v' := by
  induction suf generalizing pre v fuel with
  | nil =>
    obtain ⟨fuel, rfl⟩ := Nat.exists_eq_succ_of_ne_zero (Nat.ne_zero_of_lt hfuel)
    have hch : v.line.getD v.cmdline 0#8 = 0#8 := by rw [hline, hpos]; exact getD_line pre tail 0#8
    refine ⟨v.argc, { v with argv := Function.update v.argv v.argc none }, by rw [breakGo, hch, if_pos rfl],
      fun i hi => Function.update_of_ne (by omega) _ _, fun i hi => Function.update_of_ne (by omega) _ _,
      fun h => by simp [breakLoop] at h, ?_⟩
    rintro as (h : some [] = some as)
    obtain rfl := Option.some.inj h
    exact ⟨by simp, by simpa using hline, Function.update_self _ _ _, fun i hi => absurd hi (by simp)⟩
  | cons ch rest ih =>
    obtain ⟨fuel, rfl⟩ := Nat.exists_eq_succ_of_ne_zero (Nat.ne_zero_of_lt hfuel)
    rw [List.length_cons] at hfuel
    simp only [List.mem_cons, not_or] at hnul
    have hch : v.line.getD v.cmdline 0#8 = ch := by rw [hline, hpos]; exact getD_line pre _ ch
    have hwhole : pre ++ ch :: rest = (pre ++ [ch]) ++ rest := by simp
    have hlen : v.cmdline + 1 = (pre ++ [ch]).length := by simp [hpos]
    rw [breakGo, hch, if_neg (Ne.symm hnul.1), breakLoop, hwhole]
    cases hs : isspace ch with
    | true =>
      have hg : isgraph ch = false := isgraph_of_isspace hs
      have hbody : breakBody argn ch v = .ok { v with line := v.line.set v.cmdline 0#8, inword := false } := by
        simp [breakBody, hs, hg]
      have hset : v.line.set v.cmdline 0#8 = clearSpaces (pre ++ [ch]) ++ (rest ++ 0#8 :: tail) := by
        rw [hline, hpos, List.set_append_right _ _ (by simp [clearSpaces])]
        simp [clearSpaces, hs]
      obtain ⟨res, v', hrun, hend⟩ := @ih (pre ++ [ch])
        { v with line := v.line.set v.cmdline 0#8, inword := false, cmdline := v.cmdline + 1 } fuel
        hnul.2 hset hlen hargc (by omega)
      refine ⟨res, v', by rw [hbody]; exact hrun, ?_⟩
      simp only [hg, if_true, Bool.false_eq_true, if_false]
      exact hend.of_same rfl rfl
    | false =>
      have hkeep : v.line = clearSpaces (pre ++ [ch]) ++ (rest ++ 0#8 :: tail) := by
        rw [hline]
        simp [clearSpaces, hs]
      simp only [Bool.false_eq_true, if_false]
      cases hg : isgraph ch with
      | false =>
        have hbody : breakBody argn ch v = .ok v := by simp [breakBody, hs, hg]
        obtain ⟨res, v', hrun, hend⟩ := @ih (pre ++ [ch]) { v with cmdline := v.cmdline + 1 } fuel
          hnul.2 hkeep hlen hargc (by omega)
        refine ⟨res, v', by rw [hbody]; exact hrun, ?_⟩
        simp only [Bool.false_eq_true, if_false]
        exact hend.of_same rfl rfl
      | true =>
        simp only [if_true]
        cases hw : v.inword with
        | true =>
          have hbody : breakBody argn ch v = .ok { v with inword := true } := by
            simp [breakBody, hs, hg, hw]
          obtain ⟨res, v', hrun, hend⟩ := @ih (pre ++ [ch])
            { v with inword := true, cmdline := v.cmdline + 1 } fuel hnul.2 hkeep hlen hargc (by omega)
          refine ⟨res, v', by rw [hbody]; exact hrun, ?_⟩
          simp only [if_true]
          exact hend.of_same rfl rfl
        | false =>
          simp only [Bool.false_eq_true, if_false]
          by_cases hroom : v.argc < argn - 1
          · have hbody : breakBody argn ch v = .ok { v with
                argv := Function.update v.argv v.argc (some v.cmdline), argc := v.argc + 1, inword := true } := by
              simp [breakBody, hs, hg, hw, hroom]
            obtain ⟨res, v', hrun, hend⟩ := @ih (pre ++ [ch])
              { v with
                argv := Function.update v.argv v.argc (some v.cmdline), argc := v.argc + 1, inword := true
                cmdline := v.cmdline + 1 } fuel hnul.2 hkeep hlen hroom (by omega)
            refine ⟨res, v', by rw [hbody]; exact hrun, ?_⟩
            rw [if_pos hroom]
            have hword := hend.word rfl rfl (show v.argc < argn by omega)
              (show v.cmdline ≤ (pre ++ [ch] ++ rest).length by simp [hpos])
            have hdrop : (pre ++ [ch] ++ rest).drop v.cmdline = ch :: rest := by simp [hpos]
            rwa [hdrop] at hword
          · have hbody : breakBody argn ch v = .error v := by simp [breakBody, hs, hg, hw, hroom]
            refine ⟨-E2BIG, v, by rw [hbody], ?_⟩
            rw [if_neg hroom]
            exact ⟨fun _ _ => rfl, fun _ _ => rfl, fun _ => rfl, fun as h => by cases h⟩

-- ---------------------------------------------------------------------------
-- The result
-- ---------------------------------------------------------------------------

/-- At offset `p` of the storage there is the string `str`, with its NUL. -/
def StrAt (storage : List Byte) (p : Nat) (str : List Byte) : Prop :=
  0#8 ∉ str ∧ str ++ [0#8] <+: storage.drop p

/-- A word ends where its space was, or at the end of the line. -/
theorem prefix_clearSpaces (line tail : List Byte) :
    (line.takeWhile fun c => !isspace c) ++ [0#8] <+: clearSpaces line ++ 0#8 :: tail := by
  induction line with
  | nil => simp [clearSpaces]
  | cons c rest ih =>
    cases hs : isspace c with
    | true => simp [clearSpaces, hs]
    | false => simpa [clearSpaces, hs] using ih

theorem strAt_clearSpaces {line : List Byte} (hnul : 0#8 ∉ line) (tail : List Byte) {p : Nat}
    (hp : p ≤ line.length) :
    StrAt (clearSpaces line ++ 0#8 :: tail) p ((line.drop p).takeWhile fun c => !isspace c) := by
  constructor
  · intro h0
    exact hnul (List.mem_of_mem_drop ((List.takeWhile_sublist _).mem h0))
  · rw [List.drop_append_of_le_length (by simpa [clearSpaces] using hp),
      show (clearSpaces line).drop p = clearSpaces (line.drop p) by simp [clearSpaces]]
    exact prefix_clearSpaces (line.drop p) tail

/--
**The shell splits every command line into exactly its words.** For every line in its storage and
every size of `argv[]`, whatever is in it before: `-E2BIG` if and only if there are more words than
`argn - 1`, and otherwise their number, with a pointer to each of them, a NULL behind, and nothing
stored beyond the array.
-/
theorem shBreakCmdline_splits {argn : Nat} (hargn : 1 ≤ argn) {line : List Byte} (hnul : 0#8 ∉ line)
    (tail : List Byte) (argv : Nat → Option Nat) {fuel : Nat} (hfuel : line.length < fuel) :
    ∃ res v, shBreakCmdlineMem argn fuel (line ++ 0#8 :: tail) argv = some (res, v) ∧
      (res = -E2BIG ↔ argn - 1 < (words line).length) ∧
      ((words line).length ≤ argn - 1 →
        res = (words line).length ∧ v.argv (words line).length = none ∧
        ∀ i (hi : i < (words line).length), ∃ p, v.argv i = some p ∧ StrAt v.line p (words line)[i]) ∧
      ∀ i, argn ≤ i → v.argv i = argv i := by
  obtain ⟨res, v, hrun, hend⟩ := @breakGo_spec argn hargn tail line [] ⟨line ++ 0#8 :: tail, 0, argv, 0, false⟩
    fuel hnul rfl rfl (Nat.zero_le _) hfuel
  have hbreak : breakLoop argn line false 0 =
      if (words line).length ≤ argn - 1 then some (words line) else none := shBreakCmdline_eq line argn
  rw [hbreak, List.nil_append] at hend
  by_cases hfit : (words line).length ≤ argn - 1
  · rw [if_pos hfit] at hend
    obtain ⟨hres, hline, hnull, hargs⟩ := hend.split _ rfl
    simp only [Nat.zero_add] at hres hnull hargs
    have hpos : res ≠ -E2BIG := by
      rw [hres, E2BIG]
      omega
    refine ⟨res, v, hrun, iff_of_false hpos (by omega), fun _ => ⟨?_, hnull, fun i hi => ?_⟩, hend.beyond⟩
    · simpa using hres
    · obtain ⟨p, hp, hat, hword⟩ := hargs i hi
      refine ⟨p, hat, ?_⟩
      rw [hword, hline]
      exact strAt_clearSpaces hnul tail hp
  · rw [if_neg hfit] at hend
    exact ⟨res, v, hrun, iff_of_true (hend.failed rfl) (by omega), fun h => absurd h hfit, hend.beyond⟩

/-- A line with leading spaces, a control character inside a word, and trailing spaces, for an array
of three pointers. -/
theorem shBreakCmdline_splits_ls :
    ∃ res v, shBreakCmdlineMem 3 10 (bytes "  ls -\x01l " ++ 0#8 :: []) (fun _ => some 99) = some (res, v) ∧
      res = 2 ∧ v.argv 2 = none ∧ v.argv 3 = some 99 := by
  have hwords : words (bytes "  ls -\x01l ") = [bytes "ls", bytes "-\x01l"] := by decide
  obtain ⟨res, v, hrun, -, hsplit, hbeyond⟩ := @shBreakCmdline_splits 3 (by decide)
    (bytes "  ls -\x01l ") (by decide) [] (fun _ => some 99) 10 (by decide)
  rw [hwords] at hsplit
  obtain ⟨hres, hnull, -⟩ := hsplit (by decide)
  exact ⟨res, v, hrun, by simpa using hres, hnull, hbeyond 3 (by decide)⟩

end Munix
