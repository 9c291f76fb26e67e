import Mathlib.Data.List.Infix
import Packrat.CommandLine

/-!
# Two spellings of an option

An option with a value is spelled by two arguments, its name and the value, or by one, in which a
sign of equality joins them.  The first spelling takes any text for a value.  The second leaves out
all that repeats name and sign at the start of the value, so the two agree on every other value.

* `Valued.join`            an option and its value as one argument;
* `Valued.joined?_join`    such an argument is taken apart as it was put together;
* `Command.readValue`      how arguments are read on after an option and its value;
* `Leading`                arguments after which the next one is still taken for an option;
* `Leading.congr`          what follows them can be replaced by what is read alike;
* `spellings_agree`        so both spellings have the same answer.
-/

namespace Packrat

namespace Valued
variable {option other : Valued} {head cs rest : List Char} {argument value : String}

/-! ## taking arguments apart -/

theorem stripOnce?_eq_some : stripOnce? head cs = some rest ↔ cs = head ++ rest := by
  induction head generalizing cs with
  | nil => simp [stripOnce?]
  | cons h head ih =>
    cases cs with
    | nil => simp [stripOnce?]
    | cons c cs =>
      rw [stripOnce?, List.cons_append, List.cons.injEq]
      split
      · next hc =>
        rw [ih]
        exact ⟨fun hcs => ⟨hc.symm, hcs⟩, And.right⟩
      · next hc => exact ⟨nofun, fun ⟨hch, _⟩ => absurd hch.symm hc⟩

theorem stripOnce?_eq_none : stripOnce? head cs = none ↔ ¬ head <+: cs := by
  rw [Option.eq_none_iff_forall_ne_some]
  constructor
  · rintro h ⟨rest, rfl⟩
    exact h rest (stripOnce?_eq_some.mpr rfl)
  · intro h rest hrest
    exact h ⟨rest, (stripOnce?_eq_some.mp hrest).symm⟩

theorem stripAll_eq_self (h : ¬ head <+: cs) (most : Nat) : stripAll head most cs = cs := by
  cases most with
  | zero => rfl
  | succ most => rw [stripAll, stripOnce?_eq_none.mpr h]

/-- what stands before a value that is joined to the option -/
def label (option : Valued) : List Char := (option.long ++ "=").toList

/-- the option and its value as one argument -/
def join (option : Valued) (value : String) : String := option.long ++ "=" ++ value

theorem toList_join (option : Valued) (value : String) :
    (option.join value).toList = option.label ++ value.toList := by
  rw [join, String.toList_append, label]

/-- no option is spelled by the start of another one's spelling -/
theorem eq_of_label_begins (h : other.label <+: option.label) : other = option := by
  revert h
  cases other <;> cases option <;> decide

theorem joinedValue?_eq (option : Valued) (argument : String) :
    option.joinedValue? argument = (stripOnce? option.label argument.toList).map fun rest =>
      String.ofList (stripAll option.label rest.length rest) := by
  simp only [joinedValue?]
  show _ = (stripOnce? (option.long ++ "=").toList argument.toList).map _
  cases stripOnce? (option.long ++ "=").toList argument.toList <;> rfl

theorem joinedValue?_join (h : ¬ option.label <+: value.toList) :
    option.joinedValue? (option.join value) = some value := by
  have hstrip : stripOnce? option.label (option.join value).toList = some value.toList :=
    stripOnce?_eq_some.mpr (option.toList_join value)
  rw [joinedValue?_eq, hstrip, Option.map_some, stripAll_eq_self h, String.ofList_toList]

theorem joinedValue?_join_of_ne (h : other ≠ option) :
    other.joinedValue? (option.join value) = none := by
  have hstrip : stripOnce? other.label (option.join value).toList = none := by
    rw [stripOnce?_eq_none, toList_join]
    intro hlabel
    -- of two beginnings of one text, one begins with the other
    rcases List.prefix_or_prefix_of_prefix hlabel (List.prefix_append _ _) with hlabel | hlabel
    · exact h (eq_of_label_begins hlabel)
    · exact h (eq_of_label_begins hlabel).symm
  rw [joinedValue?_eq, hstrip, Option.map_none]

/-- **A joined argument is taken apart as it was put together**, unless the value begins as the
argument does. -/
theorem joined?_join (h : ¬ option.label <+: value.toList) :
    joined? (option.join value) = some (option, value) := by
  have hmem : option ∈ [Valued.grammar, .rule, .input, .file] := by cases option <;> decide
  obtain ⟨earlier, later, hoptions, hearlier⟩ := List.eq_append_cons_of_mem hmem
  have hnone : earlier.findSome? (fun other =>
      (other.joinedValue? (option.join value)).map (other, ·)) = none := by
    rw [List.findSome?_eq_none_iff]
    intro other hother
    have hne : other ≠ option := fun heq => hearlier (heq ▸ hother)
    rw [joinedValue?_join_of_ne hne, Option.map_none]
  rw [joined?, hoptions, List.findSome?_append, hnone, List.findSome?_cons, joinedValue?_join h]
  rfl

/-- an argument that can be taken apart has a sign of equality -/
theorem equals_mem_of_joined? {found : Valued × String} (h : joined? argument = some found) :
    '=' ∈ argument.toList := by
  obtain ⟨option, -, hfound⟩ := List.exists_of_findSome?_eq_some h
  obtain ⟨value, hvalue, -⟩ := Option.map_eq_some_iff.mp hfound
  rw [joinedValue?_eq] at hvalue
  obtain ⟨rest, hrest, -⟩ := Option.map_eq_some_iff.mp hvalue
  rw [stripOnce?_eq_some.mp hrest]
  apply List.mem_append_left
  cases option <;> decide

/-- the name of an option has none -/
theorem equals_not_mem_of_ofName? (h : ofName? argument = some option) : '=' ∉ argument.toList := by
  rw [ofName?.eq_def] at h
  split at h
  iterate 8 decide
  cases h

end Valued

/-! ## reading on -/

/-- the options without a value -/
def switches : List String := ["--color", "--no-color", "--no-memo"]

/-- the arguments that are looked for before any option with a value -/
def reserved : List String := ["-h", "--help", "-V", "--version", "--"] ++ switches

/-- arguments that are options, each with its value if it takes one: the next argument is again taken
for an option.  Any other argument ends the options: it asks for help or the version, is the first
word of the input, is refused, or is a name that lacks its value. -/
inductive Leading : List String → Prop
  | nil : Leading []
  | switch {argument : String} {rest : List String} : argument ∈ switches → Leading rest →
      Leading (argument :: rest)
  | named {name value : String} {rest : List String} {option : Valued} :
      Valued.ofName? name = some option → Leading rest → Leading (name :: value :: rest)
  | joined {argument : String} {rest : List String} {found : Valued × String} :
      Valued.joined? argument = some found → Leading rest → Leading (argument :: rest)

theorem not_mem_reserved {argument : String} : argument ∉ reserved ↔
    argument ≠ "-h" ∧ argument ≠ "--help" ∧ argument ≠ "-V" ∧ argument ≠ "--version" ∧
      argument ≠ "--" ∧ argument ≠ "--color" ∧ argument ≠ "--no-color" ∧
      argument ≠ "--no-memo" := by
  simp [reserved, switches]

theorem Valued.not_reserved_of_joined? {argument : String} {found : Valued × String}
    (h : joined? argument = some found) : argument ∉ reserved := by
  have hnone : ∀ word ∈ reserved, '=' ∉ word.toList := by decide
  exact fun hmem => hnone argument hmem (equals_mem_of_joined? h)

theorem Valued.not_reserved_of_ofName? {name : String} {option : Valued}
    (h : ofName? name = some option) : name ∉ reserved := by
  have hnone : ∀ word ∈ reserved, ofName? word = none := by decide
  intro hmem
  rw [hnone name hmem] at h
  cases h

namespace Command
variable {m : Type → Type} [Monad m] (sources : Sources m) (s : Settings)

/-- reads the other arguments after an option with that value -/
def readValue (option : Valued) (value : String) (rest : List String) :
    m (Except UsageError Command) := do
  match ← applyValue sources s option value with
  | .error e => pure (.error e)
  | .ok s => ofArgumentsIn sources s rest

theorem ofArgumentsIn_named {name : String} {option : Valued} (h : Valued.ofName? name = some option)
    (value : String) (rest : List String) :
    ofArgumentsIn sources s (name :: value :: rest) = readValue sources s option value rest := by
  have hname := Valued.not_reserved_of_ofName? h
  simp only [not_mem_reserved] at hname
  rw [ofArgumentsIn.eq_def]
  simp only [hname, h, if_false, or_false]
  rfl

theorem ofArgumentsIn_joined {argument value : String} {option : Valued}
    (h : Valued.joined? argument = some (option, value)) (rest : List String) :
    ofArgumentsIn sources s (argument :: rest) = readValue sources s option value rest := by
  have hargument := Valued.not_reserved_of_joined? h
  have hname : Valued.ofName? argument = none := by
    by_contra hsome
    obtain ⟨option, hoption⟩ := Option.ne_none_iff_exists'.mp hsome
    exact Valued.equals_not_mem_of_ofName? hoption (Valued.equals_mem_of_joined? h)
  simp only [not_mem_reserved] at hargument
  rw [ofArgumentsIn.eq_def]
  simp only [hargument, hname, h, if_false, or_false]
  rfl

/-- options that are read alike for all settings still are if the same options stand before them -/
theorem readValue_congr {rest rest' : List String}
    (h : ∀ s, ofArgumentsIn sources s rest = ofArgumentsIn sources s rest') (option : Valued)
    (value : String) : readValue sources s option value rest = readValue sources s option value rest' := by
  unfold readValue
  congr 1
  funext outcome
  cases outcome with
  | error e => rfl
  | ok s => exact h s

end Command

/-- **What follows leading options can be replaced by what is read alike**, since what they settle
does not depend on it. -/
theorem Leading.congr {m : Type → Type} [Monad m] (sources : Sources m)
    {before rest rest' : List String} (h : Leading before)
    (hrest : ∀ s, Command.ofArgumentsIn sources s rest = Command.ofArgumentsIn sources s rest')
    (s : Settings) :
    Command.ofArgumentsIn sources s (before ++ rest) =
      Command.ofArgumentsIn sources s (before ++ rest') := by
  induction h generalizing s with
  | nil => exact hrest s
  | switch hswitch _ ih =>
    simp only [switches, List.mem_cons, List.not_mem_nil, or_false] at hswitch
    rw [List.cons_append, List.cons_append, Command.ofArgumentsIn.eq_def,
      Command.ofArgumentsIn.eq_def]
    rcases hswitch with rfl | rfl | rfl <;> exact ih _
  | named hname _ ih =>
    rw [List.cons_append, List.cons_append, List.cons_append, List.cons_append,
      Command.ofArgumentsIn_named sources s hname, Command.ofArgumentsIn_named sources s hname]
    exact Command.readValue_congr sources s ih _ _
  | @joined argument rest found hfound _ ih =>
    rw [List.cons_append, List.cons_append, Command.ofArgumentsIn_joined sources s hfound,
      Command.ofArgumentsIn_joined sources s hfound]
    exact Command.readValue_congr sources s ih _ _

/-- **Both spellings of an option have the same answer.**  Wherever options lead up to the name of an
option with a value, the two arguments can be replaced by one in which they are joined: whatever the
files and the standard input hold and however they are read, the outputs and the exit code are the
same, for all values that do not begin with the name and the sign of equality themselves. -/
theorem spellings_agree {m : Type → Type} [Monad m] (sources : Sources m) (terminal : Bool)
    (limit : Nat) (elapsed : String) {before : List String} (hbefore : Leading before)
    (option : Valued) {value : String} (hvalue : ¬ (option.long ++ "=").toList <+: value.toList)
    (after : List String) :
    answer? limit elapsed <$>
        Command.ofArguments sources terminal (before ++ option.long :: value :: after) =
      answer? limit elapsed <$>
        Command.ofArguments sources terminal (before ++ (option.long ++ "=" ++ value) :: after) := by
  have hname : Valued.ofName? option.long = some option := by cases option <;> rfl
  have hjoined : Valued.joined? (option.long ++ "=" ++ value) = some (option, value) :=
    Valued.joined?_join hvalue
  have hhere : ∀ s, Command.ofArgumentsIn sources s (option.long :: value :: after) =
      Command.ofArgumentsIn sources s ((option.long ++ "=" ++ value) :: after) := by
    intro s
    rw [Command.ofArgumentsIn_named sources s hname, Command.ofArgumentsIn_joined sources s hjoined]
  exact congrArg _ (hbefore.congr sources hhere _)

namespace Doubled

/-- no files, and nothing in the standard input -/
def sources : Sources Id where
  file _ := .error "No such file or directory (os error 2)"
  standardInput := .ok ""

/-- a value that looks like an option, after an option that takes another one's name for its value -/
theorem spellings_agree_of_odd_value :
    Leading ["--no-memo", "-r", "--file", "--rule=sum"] ∧
    (Id.run (Command.ofArguments sources false
      ["--no-memo", "-r", "--file", "--rule=sum", "--input=--rule=-1", "--color"])).toOption =
      some (Command.parse ⟨"--rule=-1", .arithmetic, some "sum", false, true⟩) ∧
    answer? 100 "" (Id.run (Command.ofArguments sources false
      (["--no-memo", "-r", "--file", "--rule=sum"] ++ ["--input", "--rule=-1", "--color"]))) =
    answer? 100 "" (Id.run (Command.ofArguments sources false
      (["--no-memo", "-r", "--file", "--rule=sum"] ++
        ["--input" ++ "=" ++ "--rule=-1", "--color"]))) := by
  have hleading : Leading ["--no-memo", "-r", "--file", "--rule=sum"] :=
    .switch (by decide) (.named rfl (.joined rfl .nil))
  have hvalue : ¬ (Valued.input.long ++ "=").toList <+: "--rule=-1".toList := by decide
  have hagree := congrArg Id.run
    (spellings_agree sources false 100 "" hleading .input hvalue ["--color"])
  rw [Id.run_map, Id.run_map] at hagree
  exact ⟨hleading, by decide +kernel, hagree⟩

/-- **Name and sign are left out wherever they begin the value**, so the two spellings can differ: one
asks for a grammar by the name `--grammar=xml`, the other by the name `xml`. -/
theorem spellings_differ :
    answer? 100 "" (Id.run (Command.ofArguments sources false ["--grammar", "--grammar=xml"])) =
      some ⟨2, "", "error: unknown grammar '--grammar=xml' (expected arith, json or asm)\n"⟩ ∧
    answer? 100 "" (Id.run (Command.ofArguments sources false ["--grammar=--grammar=xml"])) =
      some ⟨2, "", "error: unknown grammar 'xml' (expected arith, json or asm)\n"⟩ ∧
    answer? 100 "" (Id.run (Command.ofArguments sources false ["--grammar", "--grammar=xml"])) ≠
      answer? 100 "" (Id.run (Command.ofArguments sources false ["--grammar=--grammar=xml"])) := by
  decide +kernel

end Doubled

end Packrat
