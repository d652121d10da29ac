import BuildScript.CommandLine
import BuildScript.Proofs.CommandLine.Directory
import BuildScript.Proofs.Layout.Idempotent
import BuildScript.Proofs.Text.Utf8

/-!
Printing, checking and writing. The three come to the same text: checking compares it with the file
and writing puts it there, and nothing else is touched (`runCommand_modes`).
-/
namespace BuildScript

namespace Arguments

/-- Options that say how to print, in any order and each at most once. -/
inductive Styled : Bool → Option Indentation → List String → Prop
  | nil : Styled false .none []
  | strip {indent : Option Indentation} {args : List String} (h : Styled false indent args) :
    Styled true indent ("--strip-parens" :: args)
  | tabs {strip : Bool} {args : List String} (h : Styled strip .none args) :
    Styled strip (some .tabs) ("--tabs" :: args)
  | spaces {strip : Bool} {args : List String} {value : String} {n : Nat}
    (hn : natural? value = some n) (h : Styled strip .none args) :
    Styled strip (some (.spaces n)) ("--indent" :: value :: args)

inductive Chosen : Bool → Bool → List String → Prop
  | print : Chosen false false []
  | check : Chosen true false ["--check"]
  | write : Chosen false true ["--write"]
  | checkWrite : Chosen true true ["--check", "--write"]
  | writeCheck : Chosen true true ["--write", "--check"]

/-- Arguments that name the file. A name that looks like an option stands behind a `--`. -/
inductive Names (file : String) : List String → Prop
  | plain (hne : file ≠ "") (h : file.startsWith "-" = false ∨ file = "-") : Names file [file]
  | behind (hne : file ≠ "") : Names file ["--", file]

theorem read?_other (a : Arguments) {arg : String} {rest : List String} (hend : arg ≠ "--")
    (hindent : arg ≠ "--indent") : a.read? (arg :: rest) =
      if arg.startsWith "--indent=" then
        (a.setIndent (String.ofList (arg.toList.drop 9))).bind (·.read? rest)
      else if arg.startsWith "--" then (a.setFlag arg).bind (·.read? rest)
      else if arg.startsWith "-" && arg != "-" then
        (a.setLetters (arg.toList.drop 1)).bind (·.read? rest)
      else (a.setPath arg).bind (·.read? rest) := by
  rw [read?]
  · exact hend
  · exact fun _ _ h _ => hindent h

theorem read?_flag (a : Arguments) {flag : String} {rest : List String}
    (h : flag ∈ ["--strip-parens", "--tabs", "--check", "--write"]) :
    a.read? (flag :: rest) = (a.setFlag flag).bind (·.read? rest) := by
  simp only [List.mem_cons, List.not_mem_nil, or_false] at h
  have key : flag ≠ "--" ∧ flag ≠ "--indent" ∧ flag.startsWith "--indent=" = false ∧
      flag.startsWith "--" = true := by
    rcases h with rfl | rfl | rfl | rfl <;> simp
  obtain ⟨hend, hindent, hvalue, hflag⟩ := key
  rw [read?_other a hend hindent, hvalue, hflag]
  rfl

theorem read?_names {a : Arguments} {file : String} {args : List String} (ha : a.path = .none)
    (h : Names file args) : a.read? args = some { a with path := some file } := by
  have hpath (hne : file ≠ "") : a.setPath file = some { a with path := some file } := by
    simp [setPath, ha, hne]
  cases h with
  | behind hne =>
    rw [read?, List.foldlM_cons, hpath hne]
    rfl
  | plain hne h =>
    have hdash (x : Char) (rest : List Char) :
        file.startsWith (String.ofList ('-' :: x :: rest)) = false := by
      rw [String.startsWith_string_eq_false_iff, String.toList_ofList]
      intro hprefix
      rcases h with h | rfl
      · rw [String.startsWith_string_eq_false_iff] at h
        exact h (.trans ⟨x :: rest, rfl⟩ hprefix)
      · exact absurd hprefix.length_le (by simp)
    have hplain : (file.startsWith "-" && file != "-") = false := by
      rcases h with h | rfl <;> simp [*]
    rw [read?_other a, show file.startsWith "--indent=" = false from hdash _ _,
      show file.startsWith "--" = false from hdash _ _, hplain, hpath hne]
    · rfl
    · rintro rfl
      simp at h
    · rintro rfl
      simp at h

def styled (a : Arguments) (strip : Bool) (indent : Option Indentation) : Arguments :=
  { a with
    stripParens := a.stripParens || strip
    tabs := a.tabs || indent == some .tabs
    indent := a.indent.or (indent.bind fun | .spaces n => some n | .tabs => .none) }

theorem read?_styled {strip : Bool} {indent : Option Indentation} {flags rest : List String}
    (h : Styled strip indent flags) (a : Arguments) (hstrip : strip = true → a.stripParens = false)
    (hindent : indent ≠ .none → a.tabs = false ∧ a.indent = .none) :
    a.read? (flags ++ rest) = (a.styled strip indent).read? rest := by
  induction h generalizing a with
  | nil => simp [styled]
  | strip _ ih =>
    have ha := hstrip rfl
    rw [List.cons_append, read?_flag a (by simp)]
    simp only [setFlag, ha, Bool.false_eq_true, if_false, Option.bind_some]
    rw [ih { a with stripParens := true } nofun hindent]
    simp [styled, ha]
  | tabs _ ih =>
    obtain ⟨htabs, hnone⟩ := hindent nofun
    rw [List.cons_append, read?_flag a (by simp)]
    simp only [setFlag, htabs, Bool.false_eq_true, if_false, Option.bind_some]
    rw [ih { a with tabs := true } hstrip (absurd rfl)]
    simp [styled, htabs, hnone]
  | spaces hn _ ih =>
    obtain ⟨htabs, hnone⟩ := hindent nofun
    rw [List.cons_append, List.cons_append, read?]
    simp only [setIndent, hnone, hn, Option.bind_some]
    rw [ih { a with indent := some _ } hstrip (absurd rfl)]
    simp only [styled, htabs, hnone]
    rfl

theorem read?_chosen {check write : Bool} {modes rest : List String}
    (h : Chosen check write modes) {a : Arguments} (ha : a.check = false ∧ a.write = false) :
    a.read? (modes ++ rest) = read? { a with check := check, write := write } rest := by
  obtain ⟨strip, w, c, dump, tabs, indent, path⟩ := a
  obtain ⟨rfl, rfl⟩ := ha
  cases h with
  | print => rfl
  | check | write =>
    rw [List.cons_append, read?_flag _ (by simp)]
    rfl
  | checkWrite | writeCheck =>
    rw [List.cons_append, read?_flag _ (by simp), setFlag, if_neg (by simp), Option.bind_some,
      List.cons_append, read?_flag _ (by simp)]
    rfl

theorem ofArguments?_eq {strip check write : Bool} {indent : Option Indentation}
    {flags modes names : List String} {file : String} (hflags : Styled strip indent flags)
    (hmodes : Chosen check write modes) (hnames : Names file names) :
    Options.ofArguments? (flags ++ (modes ++ names)) =
      some ⟨strip, write, check, false, indent.getD default, file⟩ := by
  unfold Options.ofArguments?
  rw [read?_styled hflags none (fun _ => rfl) (fun _ => ⟨rfl, rfl⟩), read?_chosen hmodes ⟨rfl, rfl⟩,
    read?_names rfl hnames]
  rcases indent with - | - | n <;> rfl

end Arguments

namespace Options
variable {o : Options} {bytes : List UInt8} {text : List Char} {script : Script}

theorem run_of_parse (hdump : o.dump = false) (hdecode : Utf8.decode bytes = .ok text)
    (hparse : Script.parse (String.ofList text) = .ok script) :
    ∃ formatted, (script.prepared o.stripParens).render o.indent = .ok formatted ∧
      o.run (.ok bytes) =
        if o.check then
          if formatted = String.ofList text then .ok .nothing else .error (.notFormatted o.path)
        else if o.write then
          .ok (if formatted = String.ofList text then .nothing else .write formatted)
        else .ok (.print formatted) := by
  have hlegible := Script.legible_of_parse hparse
  have hnamed : Script.Legible { script with path := some o.path } :=
    ⟨hlegible.statements, hlegible.comments⟩
  refine ⟨_, (hlegible.prepared o.stripParens).render_eq o.indent, ?_⟩
  have hrender := (hnamed.prepared o.stripParens).render_eq o.indent
  rw [Script.prepared_eq] at hrender ⊢
  have hstripped : (if o.stripParens then
      (Script.stripped { script with path := some o.path }).1
      else { script with path := some o.path }) =
        Script.prepared o.stripParens { script with path := some o.path } := rfl
  unfold run
  simp only [Except.mapError, hdecode, Except.map, hparse, hdump, hstripped, Script.prepared_eq,
    hrender, bind, Except.bind, pure, Except.pure, throw, throwThe, MonadExceptOf.throw]
  rfl

theorem run_error {content : Except ReadError (List UInt8)}
    (h : ¬∃ bytes text script, content = .ok bytes ∧ Utf8.decode bytes = .ok text ∧
      Script.parse (String.ofList text) = .ok script) : ∃ e, o.run content = .error e := by
  unfold run
  cases content with
  | error cause => exact ⟨_, rfl⟩
  | ok bytes =>
    cases hdecode : Utf8.decode bytes with
    | error fault =>
      simp only [Except.mapError, hdecode, Except.map, bind, Except.bind]
      exact ⟨_, rfl⟩
    | ok text =>
      cases hparse : Script.parse (String.ofList text) with
      | error e =>
        simp only [Except.mapError, hdecode, Except.map, hparse, bind, Except.bind]
        exact ⟨_, rfl⟩
      | ok script => exact absurd ⟨bytes, text, script, rfl, hdecode, hparse⟩ h

end Options

namespace Directory
open Arguments

def Accepts (d : Directory) (file : String) : Prop :=
  ∃ bytes text script, d.read file = .ok bytes ∧ Utf8.decode bytes = .ok text ∧
    Script.parse (String.ofList text) = .ok script

section Modes
variable {d : Directory} {file : String} {strip check write : Bool} {indent : Option Indentation}
  {flags modes names : List String}

theorem runCommand_of_accepts (hflags : Styled strip indent flags) (hnames : Names file names)
    (h : d.Accepts file) :
    ∃ text, ∀ check write modes, Chosen check write modes →
      d.runCommand (flags ++ (modes ++ names)) =
        if check then
          if d.read file = .ok (Utf8.encode text) then (.finished 0 "" "", d)
          else (.finished 1 "" (RunError.notFormatted file).message, d)
        else if write then
          (.finished 0 "" "",
            if d.read file = .ok (Utf8.encode text) then d else d.write file (Utf8.encode text))
        else (.finished 0 text "", d) := by
  obtain ⟨bytes, source, script, hread, hdecode, hparse⟩ := h
  have hrun (check write : Bool) :=
    Options.run_of_parse (o := ⟨strip, write, check, false, indent.getD default, file⟩) rfl hdecode
      hparse
  obtain ⟨text, hrender, -⟩ := hrun false false
  have hsame : d.read file = .ok (Utf8.encode text) ↔ text = String.ofList source := by
    rw [hread, ← Utf8.encode_of_decode hdecode, Except.ok.injEq, Utf8.encode_inj, eq_comm]
  refine ⟨text, fun check write modes hmodes => ?_⟩
  obtain ⟨text', hrender', hrun⟩ := hrun check write
  obtain rfl : text = text' := by simpa [hrender] using hrender'
  unfold runCommand
  rw [ofArguments?_eq hflags hmodes hnames]
  dsimp only at hrun ⊢
  simp only [hsame]
  rw [hread, hrun]
  split_ifs <;> rfl

theorem runCommand_of_not_accepts (hflags : Styled strip indent flags)
    (hmodes : Chosen check write modes) (hnames : Names file names) (h : ¬d.Accepts file) :
    ∃ e, d.runCommand (flags ++ (modes ++ names)) = (.finished 1 "" e, d) := by
  unfold runCommand
  rw [ofArguments?_eq hflags hmodes hnames]
  obtain ⟨e, he⟩ := Options.run_error (o := ⟨strip, write, check, false, indent.getD default, file⟩)
    fun ⟨bytes, text, script, haccepts⟩ => h ⟨bytes, text, script, haccepts⟩
  dsimp only
  rw [he]
  exact ⟨_, rfl⟩

theorem exists_resolve {bytes : List UInt8} (h : d.read file = .ok bytes) :
    ∃ name, d.resolve file = .ok name := by
  unfold read at h
  cases hresolve : d.resolve file with
  | error cause =>
    rw [hresolve] at h
    cases h
  | ok name => exact ⟨name, rfl⟩

/-- Printing succeeds exactly if the source is accepted. Checking succeeds if the file holds what is
printed, writing puts it there, and neither prints anything. Nothing changes but the file that is
written. -/
theorem runCommand_modes (d : Directory) (hflags : Styled strip indent flags)
    (hnames : Names file names) :
    (d.Accepts file →
      ∃ text, d.runCommand (flags ++ names) = (.finished 0 text "", d) ∧
        (∀ write modes, Chosen true write modes →
          if d.read file = .ok (Utf8.encode text) then
            d.runCommand (flags ++ (modes ++ names)) = (.finished 0 "" "", d)
          else ∃ e, d.runCommand (flags ++ (modes ++ names)) = (.finished 1 "" e, d)) ∧
        ∃ after, d.runCommand (flags ++ ("--write" :: names)) = (.finished 0 "" "", after) ∧
          after.read file = .ok (Utf8.encode text) ∧
          ∀ f, d.resolve file ≠ .ok f.1 → (f ∈ after.files ↔ f ∈ d.files)) ∧
    (¬d.Accepts file → ∀ check write modes, Chosen check write modes →
      ∃ e, d.runCommand (flags ++ (modes ++ names)) = (.finished 1 "" e, d)) := by
  refine ⟨fun h => ?_, fun h _ _ _ hmodes => runCommand_of_not_accepts hflags hmodes hnames h⟩
  obtain ⟨text, hrun⟩ := runCommand_of_accepts hflags hnames h
  refine ⟨text, hrun _ _ _ .print, fun write modes hmodes => ?_, _, hrun _ _ _ .write, ?_,
    fun f hf => ?_⟩
  · rw [hrun _ _ _ hmodes, if_pos rfl]
    split_ifs
    · rfl
    · exact ⟨_, rfl⟩
  · split_ifs with hsame
    · exact hsame
    · obtain ⟨bytes, -, -, hread, -⟩ := h
      obtain ⟨name, hresolve⟩ := exists_resolve hread
      exact read_write hresolve _
  · split_ifs
    · exact Iff.rfl
    · exact mem_write hf

end Modes

def twoFiles : Directory := ⟨[("BUILD", [40, 97, 41, 32, 35, 32, 98, 10]), ("data", [0xff])]⟩

theorem resolve_twoFiles {name : String} (h : name = "BUILD" ∨ name = "data") :
    twoFiles.resolve name = .ok name := by
  have hsource : "BUILD".splitOn "/" = ["BUILD"] := by cbv
  have hdata : "data".splitOn "/" = ["data"] := by cbv
  have hsize : "BUILD".utf8ByteSize = 5 ∧ "data".utf8ByteSize = 4 := by decide
  rcases h with rfl | rfl <;> simp [resolve, follow, enter, twoFiles, hsource, hdata, hsize]

theorem accepts_twoFiles : twoFiles.Accepts "BUILD" := by
  have hread : twoFiles.read "BUILD" = .ok [40, 97, 41, 32, 35, 32, 98, 10] := by
    rw [read, resolve_twoFiles (.inl rfl)]
    rfl
  exact ⟨_, _, _, hread, by cbv, Script.parse_parenthesized⟩

theorem not_accepts_twoFiles : ¬twoFiles.Accepts "data" := by
  have hread : twoFiles.read "data" = .ok [0xff] := by
    rw [read, resolve_twoFiles (.inr rfl)]
    rfl
  rintro ⟨bytes, text, script, hbytes, hdecode, -⟩
  cases hread.symm.trans hbytes
  have hfault : Utf8.decode [0xff] = .error ⟨0, some 1⟩ := by cbv
  cases hfault.symm.trans hdecode

/-- One of the files is formatted, and the other is no source. -/
theorem runCommand_modes_twoFiles :
    Styled true (some .tabs) ["--strip-parens", "--tabs"] ∧ Names "BUILD" ["BUILD"] ∧
      Names "data" ["--", "data"] ∧ twoFiles.Accepts "BUILD" ∧ ¬twoFiles.Accepts "data" ∧
      (∃ text after,
        twoFiles.runCommand ["--strip-parens", "--tabs", "BUILD"] =
          (.finished 0 text "", twoFiles) ∧
        twoFiles.runCommand ["--strip-parens", "--tabs", "--write", "BUILD"] =
          (.finished 0 "" "", after) ∧
        after.read "BUILD" = .ok (Utf8.encode text) ∧ ("data", [0xff]) ∈ after.files) ∧
      ∃ e, twoFiles.runCommand ["--strip-parens", "--tabs", "--check", "--", "data"] =
        (.finished 1 "" e, twoFiles) := by
  have hflags : Styled true (some .tabs) ["--strip-parens", "--tabs"] := .strip (.tabs .nil)
  have hplain : Names "BUILD" ["BUILD"] := .plain (by decide) (.inl (by simp))
  have hbehind : Names "data" ["--", "data"] := .behind (by decide)
  obtain ⟨text, hprint, -, after, hwrite, hafter, hother⟩ :=
    (runCommand_modes twoFiles hflags hplain).1 accepts_twoFiles
  have hdata : ("data", [0xff]) ∈ after.files := by
    refine (hother _ ?_).2 (.tail _ (.head _))
    rw [resolve_twoFiles (.inl rfl)]
    simp
  exact ⟨hflags, hplain, hbehind, accepts_twoFiles, not_accepts_twoFiles,
    ⟨text, after, hprint, hwrite, hafter, hdata⟩,
    (runCommand_modes twoFiles hflags hbehind).2 not_accepts_twoFiles _ _ _ .check⟩

end Directory
end BuildScript
