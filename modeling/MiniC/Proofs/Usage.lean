/-
# Which arguments are accepted

The arguments of a command are a row of units (`Argument`): a flag, the option for a dialect
with the name behind it, or a path. The name is taken whatever it looks like, so the units
are found from the left, and in one way only (`spelled_injective`). Arguments are accepted if
they are the words of some units and one of these is a path; then the units say what is asked
for (`Asks`). Otherwise the words of some units stand in front of one that is at fault
(`Faulty`), and this one is reported, or there is no path.

The reader takes a unit at a time and notes what it asks for (`readArguments_unit`), and it comes
to the end or to a fault (`Argument.parted`).

Key definitions: `Dialect.IsCalled`, `Argument`, `Argument.spelled`, `Argument.Asks`, `Argument.Faulty`.
Key theorems: `Dialect.ofName_eq_ok`, `readArguments_units`, `parseArguments_cases`, `parseArguments_exact`.
-/
import MiniC.CommandLine
import Mathlib.Data.List.Forall2

namespace MiniC

namespace Dialect

/-! ### Names -/

/-- The names of a dialect. -/
def names : Dialect → List String
  | java => ["java", "typed"]
  | python => ["python", "py", "indented"]

/-- The text is a name of the dialect, with each letter in upper or lower case. -/
def IsCalled (d : Dialect) (text : String) : Prop :=
  ∃ name ∈ d.names, List.Forall₂ (fun c letter => c = letter ∨ c = letter.toUpper) text.toList name.toList

theorem toNat_toLower (c : Char) :
    c.toLower.toNat = if 65 ≤ c.toNat ∧ c.toNat ≤ 90 then c.toNat + 32 else c.toNat := by
  have code : c.val.toNat = c.toNat := rfl
  unfold Char.toLower
  split
  · next upper =>
    have upper : 65 ≤ c.toNat ∧ c.toNat ≤ 90 := upper
    rw [if_pos upper]
    have moved : (c.val + ('a'.val - 'A'.val)).toNat = c.toNat + 32 := by
      rw [UInt32.toNat_add, code]
      exact Nat.mod_eq_of_lt (show c.toNat + 32 < 4294967296 by omega)
    exact moved
  · next other => exact (if_neg other).symm

theorem toNat_toUpper (c : Char) :
    c.toUpper.toNat = if 97 ≤ c.toNat ∧ c.toNat ≤ 122 then c.toNat - 32 else c.toNat := by
  have code : c.val.toNat = c.toNat := rfl
  have back : ('A'.val - 'a'.val).toNat = 4294967264 := rfl
  unfold Char.toUpper
  split
  · next lower =>
    have lower : 97 ≤ c.toNat ∧ c.toNat ≤ 122 := lower
    rw [if_pos lower]
    have moved : (c.val + ('A'.val - 'a'.val)).toNat = c.toNat - 32 := by
      rw [UInt32.toNat_add, code, back]
      omega
    exact moved
  · next other => exact (if_neg other).symm

theorem toLower_eq_iff {c letter : Char} (lower : letter.isLower) :
    c.toLower = letter ↔ c = letter ∨ c = letter.toUpper := by
  have small : 97 ≤ letter.toNat ∧ letter.toNat ≤ 122 := by
    have both : (decide (letter.val ≥ 'a'.val) && decide (letter.val ≤ 'z'.val)) = true := lower
    rw [Bool.and_eq_true, decide_eq_true_eq, decide_eq_true_eq] at both
    exact both
  rw [← Char.toNat_inj, ← Char.toNat_inj, ← Char.toNat_inj, toNat_toLower, toNat_toUpper, if_pos small]
  split <;> omega

/-- Small letters are spelled by letters of either case. -/
theorem lowered_eq_iff {text name : String} (lower : name.toList.all Char.isLower) :
    lowered text = name ↔
      List.Forall₂ (fun c letter => c = letter ∨ c = letter.toUpper) text.toList name.toList := by
  rw [lowered, ← String.toList_inj, String.toList_ofList]
  generalize text.toList = cs, name.toList = letters at lower
  induction letters generalizing cs with
  | nil => simp
  | cons letter letters ih =>
    rw [List.all_cons, Bool.and_eq_true] at lower
    cases cs with
    | nil => simp
    | cons c cs => rw [List.map_cons, List.cons.injEq, List.forall₂_cons, toLower_eq_iff lower.1, ih cs lower.2]

theorem isCalled_iff (d : Dialect) (text : String) : d.IsCalled text ↔ lowered text ∈ d.names := by
  have lower : ∀ name ∈ d.names, name.toList.all Char.isLower := by
    cases d <;> decide
  constructor
  · rintro ⟨name, member, spelled⟩
    rwa [(lowered_eq_iff (lower name member)).mpr spelled]
  · intro member
    exact ⟨lowered text, member, (lowered_eq_iff (lower _ member)).mp rfl⟩

theorem ofName_eq (text : String) :
    ofName text =
      if lowered text ∈ java.names then .ok java
      else if lowered text ∈ python.names then .ok python
      else .error ⟨lowered text⟩ := rfl

/-- A dialect is found by its names. -/
theorem ofName_eq_ok {text : String} {d : Dialect} : ofName text = .ok d ↔ d.IsCalled text := by
  have apart : lowered text ∈ java.names → lowered text ∉ python.names :=
    (by decide : ∀ name ∈ java.names, name ∉ python.names) _
  rw [isCalled_iff, ofName_eq]
  by_cases isJava : lowered text ∈ java.names
  · rw [if_pos isJava]
    cases d <;> simp [isJava, apart]
  rw [if_neg isJava]
  by_cases isPython : lowered text ∈ python.names
  · rw [if_pos isPython]
    cases d <;> simp [isJava, isPython]
  · rw [if_neg isPython]
    cases d <;> simp [isJava, isPython]

theorem ofName_eq_error {text : String} {e : UnknownDialect} :
    ofName text = .error e ↔ (∀ d : Dialect, ¬d.IsCalled text) ∧ e = ⟨lowered text⟩ := by
  constructor
  · intro unknown
    refine ⟨fun d called => ?_, ?_⟩
    · rw [ofName_eq_ok.mpr called] at unknown
      cases unknown
    · rw [ofName_eq] at unknown
      split at unknown
      · cases unknown
      split at unknown <;> cases unknown
      rfl
  · rintro ⟨unknown, rfl⟩
    rw [ofName_eq, if_neg fun h => unknown java ((isCalled_iff java text).mpr h),
      if_neg fun h => unknown python ((isCalled_iff python text).mpr h)]

end Dialect

/-! ### Units -/

/-- An option that stands alone. -/
inductive Flag where
  | java
  | python
  | print
  | strict
  deriving DecidableEq

def Flag.word : Flag → String
  | java => "--java"
  | python => "--python"
  | print => "--print"
  | strict => "--strict"

/-- A unit of the arguments. -/
inductive Argument where
  | flag (f : Flag)
  | dialect (name : String) (d : Dialect) (called : d.IsCalled name)
  | path (text : String) (plain : ¬"--".toList <+: text.toList)

namespace Argument

def words : Argument → List String
  | flag f => [f.word]
  | dialect name _ _ => ["--dialect", name]
  | path text _ => [text]

/-- The dialect that the unit names. -/
def dialect? : Argument → Option Dialect
  | flag .java => some .java
  | flag .python => some .python
  | dialect _ d _ => some d
  | _ => none

def path? : Argument → Option String
  | path text _ => some text
  | _ => none

/-- The words of the units. -/
def spelled (units : List Argument) : List String := units.flatMap words

def paths (units : List Argument) : List String := units.filterMap path?

/-- What the units ask for: the last dialect counts, and it is Java if there is none. -/
structure Asks (units : List Argument) (o : Options) : Prop where
  input : paths units = [o.input]
  dialect : o.dialect = (units.filterMap dialect?).getLast?.getD .java
  print : o.print ↔ flag .print ∈ units
  strict : o.strict ↔ flag .strict ∈ units

/-- Units ask for one thing only. -/
theorem Asks.unique {units : List Argument} {o o' : Options} (h : Asks units o) (h' : Asks units o') : o = o' := by
  have input : o.input = o'.input := by simpa using h.input.symm.trans h'.input
  have dialect := h.dialect.trans h'.dialect.symm
  have print := Bool.eq_iff_iff.mpr (h.print.trans h'.print.symm)
  have strict := Bool.eq_iff_iff.mpr (h.strict.trans h'.strict.symm)
  cases o
  cases o'
  congr

/-- The options there are. -/
def options : List String := ["--java", "--python", "--print", "--strict", "--dialect"]

/-- At the front of the words stands a unit that is at fault, `given` being the paths before it. -/
inductive Faulty (given : List String) : List String → UsageError → Prop where
  | noName : Faulty given ["--dialect"] .dialectWithoutName
  | unknownName {name : String} (args : List String) (unknown : ∀ d : Dialect, ¬d.IsCalled name) :
      Faulty given ("--dialect" :: name :: args) (.unknownDialect ⟨Dialect.lowered name⟩)
  | unknownOption {flag : String} (args : List String) (option : "--".toList <+: flag.toList)
      (unknown : flag ∉ options) : Faulty given (flag :: args) (.unknownOption flag)
  | secondPath {text : String} (args : List String) (plain : ¬"--".toList <+: text.toList) (second : given ≠ []) :
      Faulty given (text :: args) .secondInput

end Argument

open Argument

theorem isOption_iff (arg : String) : isOption arg ↔ "--".toList <+: arg.toList := by
  have dashes : "--".toList = ['-', '-'] := rfl
  rw [dashes, isOption]
  split
  · next rest h => simp [h]
  · next other =>
    simp only [Bool.false_eq_true, false_iff]
    rintro ⟨rest, h⟩
    exact other rest h.symm

/-- The request with what a unit asks for. -/
def Request.noting (r : Request) : Argument → Request
  | .flag .java => { r with dialect := .java }
  | .flag .python => { r with dialect := .python }
  | .flag .print => { r with print := true }
  | .flag .strict => { r with strict := true }
  | .dialect _ d _ => { r with dialect := d }
  | .path text _ => { r with input := some text }

theorem readArguments_other {arg : String} (other : arg ∉ Argument.options) (r : Request) (args : List String) :
    readArguments r (arg :: args) =
      if isOption arg then .error (.unknownOption arg)
      else if r.input.isSome then .error .secondInput
      else readArguments { r with input := some arg } args := by
  simp only [Argument.options, List.mem_cons, List.not_mem_nil, or_false, not_or] at other
  obtain ⟨java, python, print, strict, dialect⟩ := other
  rw [readArguments.eq_8 r arg args java python print strict (fun h _ => dialect h) fun _ _ h _ => dialect h]
  cases r.input <;> rfl

/-- A path is none of the options. -/
theorem Argument.not_mem_options {text : String} (plain : ¬"--".toList <+: text.toList) :
    text ∉ Argument.options := fun member =>
  plain ((by decide : ∀ option ∈ Argument.options, "--".toList <+: option.toList) text member)

/-- The reader takes a unit, a second path apart, and notes what it asks for. -/
theorem readArguments_unit (r : Request) (u : Argument) (fresh : u.path? = none ∨ r.input = none)
    (args : List String) : readArguments r (u.words ++ args) = readArguments (r.noting u) args := by
  cases u with
  | flag f => cases f <;> rfl
  | dialect name d called =>
    show readArguments r ("--dialect" :: name :: args) = _
    rw [readArguments, Dialect.ofName_eq_ok.mpr called]
    rfl
  | path text plain =>
    have empty : r.input = none := by simpa [path?] using fresh
    have other : ¬isOption text := fun h => plain ((isOption_iff text).mp h)
    show readArguments r (text :: args) = _
    rw [readArguments_other (not_mem_options plain), if_neg other, empty]
    rfl

theorem Argument.paths_cons (u : Argument) (units : List Argument) :
    paths (u :: units) = u.path?.toList ++ paths units := by
  cases h : u.path? <;> simp [paths, h]

theorem noting_given {r : Request} {u : Argument} (fresh : u.path? = none ∨ r.input = none) :
    (r.noting u).input.toList = r.input.toList ++ u.path?.toList := by
  cases u with
  | path text plain =>
    have empty : r.input = none := by simpa [path?] using fresh
    simp [Request.noting, path?, empty]
  | flag f => cases f <;> simp [Request.noting, path?]
  | dialect => simp [Request.noting, path?]

/-- It takes any row of units with at most one path. -/
theorem readArguments_units (units : List Argument) (rest : List String) (r : Request)
    (single : (r.input.toList ++ paths units).length ≤ 1) :
    readArguments r (spelled units ++ rest) = readArguments (units.foldl Request.noting r) rest := by
  induction units generalizing r with
  | nil => rfl
  | cons u units ih =>
    rw [paths_cons, ← List.append_assoc] at single
    have fresh : u.path? = none ∨ r.input = none := by
      cases isPath : u.path? with
      | none => exact .inl rfl
      | some text =>
        cases given : r.input with
        | none => exact .inr rfl
        | some input => simp [isPath, given] at single
    have all : spelled (u :: units) ++ rest = u.words ++ (spelled units ++ rest) := by
      rw [spelled, spelled, List.flatMap_cons, List.append_assoc]
    rw [all, readArguments_unit r u fresh, ih (r.noting u) (noting_given fresh ▸ single), List.foldl_cons]

/-- What a row of units leaves noted. -/
theorem noting_units (units : List Argument) (r : Request) :
    (units.foldl Request.noting r).input = (paths units).getLast?.or r.input ∧
      (units.foldl Request.noting r).dialect = (units.filterMap dialect?).getLast?.getD r.dialect ∧
      ((units.foldl Request.noting r).print ↔ r.print ∨ flag .print ∈ units) ∧
      ((units.foldl Request.noting r).strict ↔ r.strict ∨ flag .strict ∈ units) := by
  induction units generalizing r with
  | nil => simp [paths]
  | cons u units ih =>
    obtain ⟨input, dialect, print, strict⟩ := ih (r.noting u)
    rw [List.foldl_cons, input, dialect, print, strict]
    cases u with
    | flag f => cases f <;> simp [paths, path?, dialect?, Request.noting, List.getLast?_cons]
    | dialect | path => simp [paths, path?, dialect?, Request.noting, List.getLast?_cons]

/-- It stops at a unit that is at fault. -/
theorem readArguments_faulty {r : Request} {args : List String} {e : UsageError}
    (fault : Faulty r.input.toList args e) : readArguments r args = .error e := by
  cases fault with
  | noName => rfl
  | unknownName args unknown => rw [readArguments, Dialect.ofName_eq_error.mpr ⟨unknown, rfl⟩]
  | unknownOption args option unknown => rw [readArguments_other unknown, if_pos ((isOption_iff _).mpr option)]
  | secondPath args plain second =>
    have other : ¬isOption _ := fun h => plain ((isOption_iff _).mp h)
    have given : r.input.isSome := by
      cases h : r.input <;> simp_all
    rw [readArguments_other (not_mem_options plain), if_neg other, if_pos given]

/-- The words are those of units, with at most one path, up to the end or to a fault. -/
def Argument.Parted (given args : List String) : Prop :=
  ∃ units rest, spelled units ++ rest = args ∧ (given ++ paths units).length ≤ 1 ∧
    (rest = [] ∨ ∃ e, Faulty (given ++ paths units) rest e)

theorem Argument.Parted.cons (u : Argument) {given args : List String} (h : Parted (given ++ u.path?.toList) args) :
    Parted given (u.words ++ args) := by
  obtain ⟨units, rest, rfl, single, last⟩ := h
  rw [List.append_assoc, ← paths_cons] at single last
  refine ⟨u :: units, rest, ?_, single, last⟩
  rw [spelled, spelled, List.flatMap_cons, List.append_assoc]

theorem Argument.Parted.fault {given args : List String} {e : UsageError} (single : given.length ≤ 1)
    (fault : Faulty given args e) : Parted given args :=
  ⟨[], args, rfl, by simpa [paths] using single, .inr ⟨e, by simpa [paths] using fault⟩⟩

/-- All arguments are parted so. -/
theorem Argument.parted (r : Request) (args : List String) : Parted r.input.toList args := by
  have single (r : Request) : r.input.toList.length ≤ 1 := by cases r.input <;> simp
  have next (u : Argument) (r : Request) {args : List String} (fresh : u.path? = none ∨ r.input = none)
      (h : Parted (r.noting u).input.toList args) : Parted r.input.toList (u.words ++ args) :=
    .cons u (noting_given fresh ▸ h)
  induction r, args using readArguments.induct with
  | case1 r => exact ⟨[], [], rfl, by simp [paths], .inl rfl⟩
  | case2 r args ih => exact next (.flag .java) r (.inl rfl) ih
  | case3 r args ih => exact next (.flag .python) r (.inl rfl) ih
  | case4 r args ih => exact next (.flag .print) r (.inl rfl) ih
  | case5 r args ih => exact next (.flag .strict) r (.inl rfl) ih
  | case6 r => exact .fault (single r) .noName
  | case7 r name args d found ih => exact next (.dialect name d (Dialect.ofName_eq_ok.mp found)) r (.inl rfl) ih
  | case8 r name args e unknown => exact .fault (single r) (.unknownName args (Dialect.ofName_eq_error.mp unknown).1)
  | case9 r arg args java python print strict last name option =>
    have dialect : arg ≠ "--dialect" := by
      rintro rfl
      cases args with
      | nil => exact last rfl rfl
      | cons n more => exact name n more rfl rfl
    have unknown : arg ∉ Argument.options := by
      simpa [Argument.options] using ⟨java, python, print, strict, dialect⟩
    exact .fault (single r) (.unknownOption args ((isOption_iff arg).mp option) unknown)
  | case10 r arg args _ _ _ _ _ _ other input given =>
    exact .fault (single r) (.secondPath args (fun h => other ((isOption_iff arg).mpr h)) (by simp [given]))
  | case11 r arg args _ _ _ _ _ _ other fresh ih =>
    exact next (.path arg fun h => other ((isOption_iff arg).mpr h)) r (.inr fresh) ih

/-! ### The options -/

theorem readArguments_spelled {units : List Argument} (single : (paths units).length ≤ 1) :
    readArguments {} (spelled units) = .ok (units.foldl Request.noting {}) := by
  have all := readArguments_units units [] {} (by simpa using single)
  rwa [List.append_nil] at all

theorem parseArguments_asked {units : List Argument} {text : String} (given : paths units = [text]) :
    ∃ o, parseArguments (spelled units) = .ok o ∧ Asks units o := by
  obtain ⟨input, dialect, print, strict⟩ := noting_units units {}
  have read := @readArguments_spelled units (by simp [given])
  rw [given] at input
  refine ⟨⟨text, _, _, _⟩, ?_, ⟨given, dialect, by simpa using print, by simpa using strict⟩⟩
  rw [parseArguments, read]
  simp [input]

theorem parseArguments_unnamed {units : List Argument} (none : paths units = []) :
    parseArguments (spelled units) = .error .noInput := by
  have input := (noting_units units {}).1
  rw [none] at input
  rw [parseArguments, readArguments_spelled (by simp [none])]
  simp [input]

theorem parseArguments_faulty {units : List Argument} {rest : List String} {e : UsageError}
    (single : (paths units).length ≤ 1) (fault : Faulty (paths units) rest e) :
    parseArguments (spelled units ++ rest) = .error e := by
  have input := (noting_units units {}).1
  have given : (units.foldl Request.noting {}).input.toList = paths units := by
    rw [input]
    rcases given : paths units with _ | ⟨text, _ | ⟨second, more⟩⟩
    · rfl
    · rfl
    · simp [given] at single
  rw [parseArguments, readArguments_units units rest {} (by simpa using single), readArguments_faulty (given ▸ fault)]

theorem Flag.word_injective {f f' : Flag} : f.word = f'.word → f = f' := by
  cases f <;> cases f' <;> decide

theorem Flag.word_mem (f : Flag) : f.word ∈ Argument.options := by
  cases f <;> decide

/-- Units are told apart by their words. -/
theorem Argument.words_append_inj {u v : Argument} {us vs : List String} (h : u.words ++ us = v.words ++ vs) :
    u = v ∧ us = vs := by
  have flags {f : Flag} {text : String} (plain : ¬"--".toList <+: text.toList) : f.word ≠ text :=
    fun same => not_mem_options plain (same ▸ f.word_mem)
  have dialect {text : String} (plain : ¬"--".toList <+: text.toList) : "--dialect" ≠ text :=
    fun same => not_mem_options plain (same ▸ by decide)
  have alone (f : Flag) : f.word ≠ "--dialect" := by cases f <;> decide
  rcases u with f | ⟨name, d, called⟩ | ⟨text, plain⟩
  · rcases v with f' | ⟨name', d', called'⟩ | ⟨text', plain'⟩
    · obtain ⟨word, rest⟩ := List.cons.inj h
      exact ⟨congrArg Argument.flag (Flag.word_injective word), rest⟩
    · exact absurd (List.cons.inj h).1 (alone f)
    · exact absurd (List.cons.inj h).1 (flags plain')
  · rcases v with f' | ⟨name', d', called'⟩ | ⟨text', plain'⟩
    · exact absurd (List.cons.inj h).1.symm (alone f')
    · obtain ⟨rfl, rest⟩ := List.cons.inj (List.cons.inj h).2
      have found := (Dialect.ofName_eq_ok.mpr called).symm.trans (Dialect.ofName_eq_ok.mpr called')
      obtain rfl := Except.ok.inj found
      exact ⟨rfl, rest⟩
    · exact absurd (List.cons.inj h).1 (dialect plain')
  · rcases v with f' | ⟨name', d', called'⟩ | ⟨text', plain'⟩
    · exact absurd (List.cons.inj h).1.symm (flags plain)
    · exact absurd (List.cons.inj h).1.symm (dialect plain)
    · obtain ⟨rfl, rest⟩ := List.cons.inj h
      exact ⟨rfl, rest⟩

theorem Argument.words_ne_nil (u : Argument) : u.words ≠ [] := by
  cases u <;> exact List.cons_ne_nil _ _

theorem Argument.spelled_injective {us vs : List Argument} (h : spelled us = spelled vs) : us = vs := by
  have some (u : Argument) (us : List Argument) : spelled (u :: us) ≠ [] := by simp [spelled, words_ne_nil]
  induction us generalizing vs with
  | nil =>
    cases vs with
    | nil => rfl
    | cons v vs => exact absurd h.symm (some v vs)
  | cons u us ih =>
    cases vs with
    | nil => exact absurd h (some u us)
    | cons v vs =>
      rw [spelled, spelled, List.flatMap_cons, List.flatMap_cons] at h
      obtain ⟨rfl, rest⟩ := words_append_inj h
      rw [ih rest]

/-- What can become of arguments. -/
theorem parseArguments_cases (args : List String) :
    (∃ units o, spelled units = args ∧ Asks units o ∧ parseArguments args = .ok o) ∨
    (∃ units rest e, spelled units ++ rest = args ∧ (paths units).length ≤ 1 ∧ Faulty (paths units) rest e ∧
      parseArguments args = .error e) ∨
    ∃ units, spelled units = args ∧ paths units = [] ∧ parseArguments args = .error .noInput := by
  obtain ⟨units, rest, rfl, single, last⟩ := parted {} args
  rcases last with rfl | ⟨e, fault⟩
  · rw [List.append_nil]
    cases given : paths units with
    | nil => exact .inr (.inr ⟨units, rfl, given, parseArguments_unnamed given⟩)
    | cons text more =>
      obtain rfl : more = [] := by simpa [given] using single
      obtain ⟨o, parsed, asks⟩ := parseArguments_asked given
      exact .inl ⟨units, o, rfl, asks, parsed⟩
  · exact .inr (.inl ⟨units, rest, e, rfl, single, fault, parseArguments_faulty single fault⟩)

/-- **The arguments that are accepted, and the faults of all others.** For every list of arguments, -/
theorem parseArguments_exact (args : List String) :
    -- it gives options if it is the words of units with one path, and they are what these ask for
    (∀ o, parseArguments args = .ok o ↔ ∃ units, spelled units = args ∧ Asks units o) ∧
    -- it is refused for the first unit at fault, or for want of a path
    (∀ e, parseArguments args = .error e ↔
      (∃ units rest, spelled units ++ rest = args ∧ (paths units).length ≤ 1 ∧ Faulty (paths units) rest e) ∨
        e = .noInput ∧ ∃ units, spelled units = args ∧ paths units = []) ∧
    -- and there is one way to part it into units
    ∀ us vs, spelled us = args → spelled vs = args → us = vs := by
  refine ⟨fun o => ⟨fun parsed => ?_, ?_⟩, fun e => ⟨fun refused => ?_, ?_⟩,
    fun us vs hus hvs => spelled_injective (hus.trans hvs.symm)⟩
  · rcases parseArguments_cases args with ⟨units, o', spells, asks, eq⟩ | ⟨_, _, _, _, _, _, eq⟩ | ⟨_, _, _, eq⟩
    · cases parsed.symm.trans eq
      exact ⟨units, spells, asks⟩
    · cases parsed.symm.trans eq
    · cases parsed.symm.trans eq
  · rintro ⟨units, rfl, asks⟩
    obtain ⟨o', parsed, asks'⟩ := parseArguments_asked asks.input
    rw [parsed, asks.unique asks']
  · rcases parseArguments_cases args with
      ⟨_, _, _, _, eq⟩ | ⟨units, rest, e', spells, single, fault, eq⟩ | ⟨units, spells, none, eq⟩
    · cases refused.symm.trans eq
    · cases refused.symm.trans eq
      exact .inl ⟨units, rest, spells, single, fault⟩
    · cases refused.symm.trans eq
      exact .inr ⟨rfl, units, spells, none⟩
  · rintro (⟨units, rest, rfl, single, fault⟩ | ⟨rfl, units, rfl, none⟩)
    · exact parseArguments_faulty single fault
    · exact parseArguments_unnamed none

/-- The last dialect counts, in whatever case it is written, and a name is taken even if it looks
like a flag. -/
theorem parseArguments_exact_names :
    (∃ units, spelled units = ["--python", "x.c", "--dialect", "JaVa", "--strict"] ∧
      Asks units ⟨"x.c", .java, false, true⟩ ∧
      ∀ others, spelled others = ["--python", "x.c", "--dialect", "JaVa", "--strict"] → others = units) ∧
    ∃ units rest, spelled units ++ rest = ["x.c", "--dialect", "--print", "y.c"] ∧ (paths units).length ≤ 1 ∧
      Faulty (paths units) rest (.unknownDialect ⟨"--print"⟩) := by
  obtain ⟨accepted, -, unique⟩ := parseArguments_exact ["--python", "x.c", "--dialect", "JaVa", "--strict"]
  obtain ⟨-, refused, -⟩ := parseArguments_exact ["x.c", "--dialect", "--print", "y.c"]
  obtain ⟨units, spells, asks⟩ := (accepted ⟨"x.c", .java, false, true⟩).mp (by rfl)
  refine ⟨⟨units, spells, asks, fun others same => unique others units same spells⟩, ?_⟩
  exact ((refused _).mp (by rfl)).resolve_right fun missing => by cases missing.1

end MiniC
