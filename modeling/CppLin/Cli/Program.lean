import CppLin.Bridge
import CppLin.Cli.Faithful
import CppLin.Lib.JsonGrammar

/-!
The whole command line tool: its arguments, the texts it describes itself with, and what it
leaves on its two output streams. `kToolVersion` is filled in by the build.
-/
namespace CppLin.Cli
open Bytes CText JsonText

/-- An error of the command line itself. -/
def usageError (text : CString) : Outcome := { stderr := text, exitCode := 2 }

def unrecognized (arg : CString) : CString :=
  "ErrInvalidArgs: unrecognized argument '".toList ++ arg ++ "'\n".toList

/-- Nothing but `--format` with its value may stand there; the last one counts. -/
def parseFormatFlag (fmt : CString) : List CString → Except CString CString
  | [] => .ok fmt
  | [arg] => .error (unrecognized arg)
  | arg :: value :: rest =>
      if arg = "--format".toList then parseFormatFlag value rest else .error (unrecognized arg)

/-- A command that prints one text or the other, as the format says. -/
def report (json text fmt : CString) : Outcome :=
  if fmt = "json".toList then { stdout := json ++ ['\n'], exitCode := 0 }
  else if fmt = "text".toList then { stdout := text, exitCode := 0 }
  else usageError ("ErrInvalidArgs: unsupported --format '".toList ++ fmt ++
    "' (want text|json)\n".toList)

section
variable (kToolVersion : CString)

def versionJson : CString :=
  ("\x7b\"tool\":\"cpp-lin\",\"protocol\":\"LIN\",\"protocol_int\":3," ++ "\"version\":\"").toList ++
    kToolVersion ++
    ("\",\"spec_version\":\"2.0\",\"language\":\"cpp\"," ++ "\"runtime\":\"c++17\"\x7d").toList

def versionText : CString :=
  ("tool:      cpp-lin\n" ++ "protocol:  LIN\n" ++ "version:   ").toList ++ kToolVersion ++
    ("\n" ++ "spec:      2.0\n" ++ "language:  cpp\n" ++ "runtime:   c++17\n").toList

def capabilitiesJson : CString :=
  ("\x7b\"kind\":\"capabilities\",\"tool\":\"cpp-lin\",\"protocol\":\"LIN\"," ++
    "\"protocol_int\":3,\"version\":\"").toList ++ kToolVersion ++
    ("\",\"spec_version\":\"2.0\"," ++
      "\"commands\":[\"version\",\"capabilities\",\"status\",\"convert\"]," ++
      "\"transports\":[\"virtual\"]," ++
      "\"features\":[\"ldf\",\"e2e\",\"master\",\"slave\",\"mock\"]," ++
      "\"interfaces\":[\"IBus\",\"IMasterBus\",\"INode\"]," ++
      "\"optional_interfaces\":[\"IHealthProvider\",\"IMetricsProvider\",\"IDrainer\"]," ++
      "\"adapt\":true\x7d").toList

def statusJson : CString :=
  ("\x7b\"protocol\":\"LIN\",\"tool\":\"cpp-lin\"," ++ "\"version\":\"").toList ++ kToolVersion ++
    ("\",\"healthy\":true,\"connected\":false," ++ "\"endpoint\":\"\",\"details\":\x7b\x7d\x7d").toList

def statusText : CString :=
  ("protocol:   LIN\n" ++ "tool:       cpp-lin\n" ++ "version:    ").toList ++ kToolVersion ++
    ("\n" ++ "healthy:    true\n" ++ "connected:  false\n" ++ "endpoint:   (none)\n").toList

def cmdVersion (fmt : CString) : Outcome :=
  report (versionJson kToolVersion) (versionText kToolVersion) fmt

def cmdCapabilities : Outcome := { stdout := capabilitiesJson kToolVersion ++ ['\n'], exitCode := 0 }

def cmdStatus (fmt : CString) : Outcome :=
  report (statusJson kToolVersion) (statusText kToolVersion) fmt

/-- The loop over the arguments of `convert`: what it does not know, and a flag at the end
without its value, it passes over. -/
def convertArgs (protocol : CString) : List CString → Except CString CString
  | [] => .ok protocol
  | [_] => .ok protocol
  | arg :: value :: rest =>
      if arg = "--protocol".toList then convertArgs value rest
      else if arg = "--format".toList then
        if value ≠ "json".toList then
          .error ("ErrUnsupportedFormat: ".toList ++ value ++ ['\n'])
        else convertArgs protocol rest
      else convertArgs protocol (value :: rest)

def convertCommand (args : List CString) (stdin : CString) : Outcome :=
  match convertArgs [] args with
  | .error text => usageError text
  | .ok protocol =>
      if protocol = [] then usageError "ErrMissingArg: --protocol required\n".toList
      else cmdConvert protocol stdin

/-- A command with the format that its arguments ask for. -/
def formatted (cmd : CString → Outcome) (args : List CString) : Outcome :=
  match parseFormatFlag "json".toList args with
  | .error text => usageError text
  | .ok fmt => cmd fmt

/-- The program, from the arguments behind its name. -/
def main (args : List CString) (stdin : CString) : Outcome :=
  match args with
  | [] =>
      usageError ("usage: cpp-lin-cli <command> [options]\n" ++
        "commands: version capabilities status convert\n").toList
  | cmd :: args =>
      if cmd = "version".toList then formatted (cmdVersion kToolVersion) args
      else if cmd = "capabilities".toList then cmdCapabilities kToolVersion
      else if cmd = "status".toList then formatted (cmdStatus kToolVersion) args
      else if cmd = "convert".toList then convertCommand args stdin
      else usageError ("ErrUnknownCommand: ".toList ++ cmd ++ ['\n'])

end

/-! The streams and the exit code. -/

/-- One of the streams is written, in whole lines: the standard output when the code is zero. -/
structure Outcome.Proper (o : Outcome) : Prop where
  code : o.exitCode ≤ 2
  success : o.exitCode = 0 → o.stderr = [] ∧ o.stdout.getLast? = some '\n'
  failure : o.exitCode ≠ 0 → o.stdout = [] ∧ o.stderr.getLast? = some '\n'

theorem proper_output {text : CString} (h : text.getLast? = some '\n') :
    ({ stdout := text, exitCode := 0 } : Outcome).Proper :=
  ⟨by simp, fun _ => ⟨rfl, h⟩, fun hcode => absurd rfl hcode⟩

theorem proper_failure {text : CString} {code : Nat} (hle : code ≤ 2) (hne : code ≠ 0)
    (h : text.getLast? = some '\n') : ({ stderr := text, exitCode := code } : Outcome).Proper :=
  ⟨hle, fun hcode => absurd hcode hne, fun _ => ⟨rfl, h⟩⟩

theorem proper_usageError {text : CString} (h : text.getLast? = some '\n') :
    (usageError text).Proper := proper_failure (by decide) (by decide) h

theorem getLast?_append_text (a : CString) {b : CString} {c : Char} (h : b.getLast? = some c) :
    (a ++ b).getLast? = some c := by
  rw [List.getLast?_append, h, Option.some_or]

theorem proper_report {json text fmt : CString} (htext : text.getLast? = some '\n') :
    (report json text fmt).Proper := by
  unfold report
  split_ifs
  · exact proper_output List.getLast?_concat
  · exact proper_output htext
  · exact proper_usageError (getLast?_append_text _ rfl)

theorem parseFormatFlag_error {fmt text : CString} {args : List CString}
    (h : parseFormatFlag fmt args = .error text) : text.getLast? = some '\n' := by
  fun_induction parseFormatFlag fmt args with
  | case1 fmt => cases h
  | case2 fmt arg =>
      obtain rfl := Except.error.inj h
      exact getLast?_append_text _ rfl
  | case3 fmt value rest ih => exact ih h
  | case4 fmt arg value rest harg =>
      obtain rfl := Except.error.inj h
      exact getLast?_append_text _ rfl

theorem proper_formatted {cmd : CString → Outcome} (hcmd : ∀ fmt, (cmd fmt).Proper)
    (args : List CString) : (formatted cmd args).Proper := by
  unfold formatted
  cases h : parseFormatFlag "json".toList args with
  | error text => exact proper_usageError (parseFormatFlag_error h)
  | ok fmt => exact hcmd fmt

theorem convertArgs_error {protocol text : CString} {args : List CString}
    (h : convertArgs protocol args = .error text) : text.getLast? = some '\n' := by
  fun_induction convertArgs protocol args with
  | case1 protocol => cases h
  | case2 protocol arg => cases h
  | case3 protocol value rest ih => exact ih h
  | case4 protocol value rest _ hvalue =>
      obtain rfl := Except.error.inj h
      exact List.getLast?_concat
  | case5 protocol value rest _ _ ih => exact ih h
  | case6 protocol arg value rest _ _ ih => exact ih h

theorem proper_convertText (input : CString) : (convertText input).Proper := by
  unfold convertText
  cases parseFrameJson input with
  | error e => exact proper_failure (by decide) (by decide) List.getLast?_concat
  | ok f =>
      simp only
      cases validateFrame f with
      | error e => exact proper_failure (by decide) (by decide) List.getLast?_concat
      | ok u => exact proper_output List.getLast?_concat

theorem proper_convertCommand (args : List CString) (stdin : CString) :
    (convertCommand args stdin).Proper := by
  unfold convertCommand
  cases h : convertArgs [] args with
  | error text => exact proper_usageError (convertArgs_error h)
  | ok protocol =>
      simp only
      split_ifs
      · exact proper_usageError rfl
      · unfold cmdConvert
        split_ifs
        · exact proper_failure (by decide) (by decide) rfl
        · exact proper_convertText _

theorem proper_main (kToolVersion : CString) (args : List CString) (stdin : CString) :
    (main kToolVersion args stdin).Proper := by
  have hversion : (versionText kToolVersion).getLast? = some '\n' := getLast?_append_text _ rfl
  have hstatus : (statusText kToolVersion).getLast? = some '\n' := getLast?_append_text _ rfl
  unfold main
  cases args with
  | nil => exact proper_usageError rfl
  | cons cmd args =>
      simp only
      split_ifs
      · exact proper_formatted (fun fmt => proper_report hversion) args
      · exact proper_output List.getLast?_concat
      · exact proper_formatted (fun fmt => proper_report hstatus) args
      · exact proper_convertCommand args stdin
      · exact proper_usageError List.getLast?_concat

/-- The command line converts the standard input, and its frame is refused. -/
def Refuses (args : List CString) (stdin : CString) : Prop :=
  ∃ rest, args = "convert".toList :: rest ∧ convertArgs [] rest = .ok "LIN".toList ∧
    ∀ f, ¬ Accepts (stdin.filter (· ≠ '\n')) f

theorem report_code (json text fmt : CString) : (report json text fmt).exitCode ≠ 1 := by
  unfold report
  split_ifs <;> simp [usageError]

theorem formatted_code {cmd : CString → Outcome} (hcmd : ∀ fmt, (cmd fmt).exitCode ≠ 1)
    (args : List CString) : (formatted cmd args).exitCode ≠ 1 := by
  unfold formatted
  cases parseFormatFlag "json".toList args with
  | error text => simp [usageError]
  | ok fmt => exact hcmd fmt

theorem convertText_code (s : CString) :
    (convertText s).exitCode = 1 ↔ ∀ f, ¬ Accepts s f := by
  constructor
  · intro h f hf
    rw [convertText_of_accepts hf] at h
    cases h
  · exact fun h => (convertText_of_rejects h).1

theorem convertCommand_code (args : List CString) (stdin : CString) :
    (convertCommand args stdin).exitCode = 1 ↔
      convertArgs [] args = .ok "LIN".toList ∧ ∀ f, ¬ Accepts (stdin.filter (· ≠ '\n')) f := by
  unfold convertCommand
  cases convertArgs [] args with
  | error text => exact iff_of_false (by decide : ¬ (2 : Nat) = 1) fun h => by cases h.1
  | ok protocol =>
      by_cases hlin : protocol = "LIN".toList
      · subst hlin
        simp only
        rw [if_neg (by decide), cmdConvert_lin, convertText_code, true_and]
      · refine iff_of_false ?_ fun h => hlin (Except.ok.inj h.1)
        simp only
        split_ifs
        · exact (by decide : ¬ (2 : Nat) = 1)
        · rw [cmdConvert, if_pos hlin]
          exact (by decide : ¬ (2 : Nat) = 1)

/-- Whatever the arguments and the input: the program writes whole lines to one of its streams,
the standard output exactly when it exits with zero, and exits with one exactly when it was to
convert a frame and refuses it. -/
theorem main_contract (kToolVersion : CString) (args : List CString) (stdin : CString) :
    (main kToolVersion args stdin).Proper ∧
      ((main kToolVersion args stdin).exitCode = 1 ↔ Refuses args stdin) := by
  refine ⟨proper_main kToolVersion args stdin, ?_⟩
  unfold main
  cases args with
  | nil => exact iff_of_false (by decide : ¬ (2 : Nat) = 1) fun ⟨_, hargs, _⟩ => by cases hargs
  | cons cmd args =>
      have hother : cmd ≠ "convert".toList → ¬ Refuses (cmd :: args) stdin := by
        rintro hcmd ⟨rest, hargs, -⟩
        exact hcmd (List.cons.inj hargs).1
      simp only
      split_ifs with hversion hcapabilities hstatus hconvert
      · exact iff_of_false (formatted_code (report_code _ _) args)
          (hother (by rw [hversion]; decide))
      · exact iff_of_false (by decide : ¬ (0 : Nat) = 1) (hother (by rw [hcapabilities]; decide))
      · exact iff_of_false (formatted_code (report_code _ _) args)
          (hother (by rw [hstatus]; decide))
      · rw [convertCommand_code]
        constructor
        · exact fun h => ⟨args, by rw [hconvert], h⟩
        · rintro ⟨rest, hargs, h⟩
          obtain ⟨-, rfl⟩ := List.cons.inj hargs
          exact h
      · exact iff_of_false (by decide : ¬ (2 : Nat) = 1) (hother hconvert)

/-! What is written. -/

theorem cmd_of_convert {kToolVersion : CString} {args : List CString} {stdin : CString}
    (h : (main kToolVersion ("convert".toList :: args) stdin).exitCode = 0) :
    ∃ f, Accepts (stdin.filter (· ≠ '\n')) f ∧
      main kToolVersion ("convert".toList :: args) stdin =
        { stdout := messageToJson (toMessage f) ++ ['\n'], exitCode := 0 } := by
  have hmain : main kToolVersion ("convert".toList :: args) stdin = convertCommand args stdin := by
    rw [main, if_neg (by decide), if_neg (by decide), if_neg (by decide), if_pos rfl]
  rw [hmain] at h ⊢
  unfold convertCommand at h ⊢
  cases hargs : convertArgs [] args with
  | error text =>
      rw [hargs] at h
      cases h
  | ok protocol =>
      rw [hargs] at h
      simp only at h ⊢
      split_ifs at h ⊢ with hempty
      · cases h
      · by_cases hlin : protocol = "LIN".toList
        · rw [hlin, cmdConvert_lin] at h ⊢
          by_cases hall : ∀ f, ¬ Accepts (stdin.filter (· ≠ '\n')) f
          · rw [(convertText_code _).mpr hall] at h
            cases h
          · obtain ⟨f, hf⟩ := not_forall_not.mp hall
            exact ⟨f, hf, convertText_of_accepts hf⟩
        · rw [cmdConvert, if_pos hlin] at h
          cases h

/-- A converted frame is one that the input text holds, a valid one, and it is what the written
text says: its message, read back from the JSON, and taken apart again. -/
structure Converted (input output : CString) (f : Frame) : Prop where
  parsed : parseFrameJson input = .ok f
  valid : validateFrame f = .ok ()
  written : ∃ text, output = text ++ ['\n'] ∧ (read text).bind frameOfJson = some f
  taken : fromMessage (toMessage f) = .ok f

theorem converted_of_accepts {s : CString} {f : Frame} (h : Accepts s f) :
    Converted s (messageToJson (toMessage f) ++ ['\n']) f where
  parsed := h.1
  valid := h.2
  written := ⟨_, rfl, by rw [read_message, Option.bind_some, frameOfJson_messageJson]⟩
  taken := fromMessage_toMessage (validateFrame_ok_iff.mp h.2).1

/-- Whatever stands on the standard input, in how many lines: when `convert` succeeds it has
written the message of a valid frame of that input. -/
theorem convert_sound (kToolVersion : CString) (args : List CString) (stdin : CString)
    (h : (main kToolVersion ("convert".toList :: args) stdin).exitCode = 0) :
    ∃ f, Converted (stdin.filter (· ≠ '\n'))
      (main kToolVersion ("convert".toList :: args) stdin).stdout f := by
  obtain ⟨f, hf, hmain⟩ := cmd_of_convert h
  refine ⟨f, ?_⟩
  rw [hmain]
  exact converted_of_accepts hf

/-- A frame over two lines of the input, after an argument the loop does not know. -/
theorem convert_sound_lines :
    let args := ["--verbose".toList, "--protocol".toList, "LIN".toList]
    let stdin := ("\x7b\"id\":16,\"data\":\n" ++ "\"qrs=\"\x7d\n").toList
    ∃ f, Converted (stdin.filter (· ≠ '\n')) (main [] ("convert".toList :: args) stdin).stdout f := by
  intro args stdin
  exact convert_sound [] args stdin (by decide +kernel)

/-! The texts in JSON. -/

section
variable {kToolVersion : CString} (hplain : kToolVersion.all isPlain = true)
include hplain

theorem versionJson_isJson : IsJson (versionJson kToolVersion) := by
  have htext : versionJson kToolVersion = objectText
      ([("tool".toList, '"' :: "cpp-lin".toList ++ ['"']),
        ("protocol".toList, '"' :: "LIN".toList ++ ['"']), ("protocol_int".toList, toCString 3)] ++
      ("version".toList, '"' :: kToolVersion ++ ['"']) ::
      [("spec_version".toList, '"' :: "2.0".toList ++ ['"']),
        ("language".toList, '"' :: "cpp".toList ++ ['"']),
        ("runtime".toList, '"' :: "c++17".toList ++ ['"'])]) :=
    objectText_around (by decide +kernel) (by decide +kernel) kToolVersion
  rw [htext]
  refine .object rfl ?_
  simp only [List.cons_append, List.nil_append, List.forall_mem_cons]
  exact ⟨.str rfl, .str rfl, .nat 3, .str hplain, .str rfl, .str rfl, .str rfl,
    fun _ h => absurd h List.not_mem_nil⟩

theorem statusJson_isJson : IsJson (statusJson kToolVersion) := by
  have htext : statusJson kToolVersion = objectText
      ([("protocol".toList, '"' :: "LIN".toList ++ ['"']),
        ("tool".toList, '"' :: "cpp-lin".toList ++ ['"'])] ++
      ("version".toList, '"' :: kToolVersion ++ ['"']) ::
      [("healthy".toList, (toString true).toList), ("connected".toList, (toString false).toList),
        ("endpoint".toList, '"' :: [] ++ ['"']), ("details".toList, objectText [])]) :=
    objectText_around (by decide +kernel) (by decide +kernel) kToolVersion
  rw [htext]
  refine .object rfl ?_
  simp only [List.cons_append, List.nil_append, List.forall_mem_cons]
  exact ⟨.str rfl, .str rfl, .str hplain, .bool true, .bool false, .str (s := []) rfl,
    .object rfl fun _ h => absurd h List.not_mem_nil, fun _ h => absurd h List.not_mem_nil⟩

theorem capabilitiesJson_isJson : IsJson (capabilitiesJson kToolVersion) := by
  have htext : capabilitiesJson kToolVersion = objectText
      ([("kind".toList, '"' :: "capabilities".toList ++ ['"']),
        ("tool".toList, '"' :: "cpp-lin".toList ++ ['"']),
        ("protocol".toList, '"' :: "LIN".toList ++ ['"']), ("protocol_int".toList, toCString 3)] ++
      ("version".toList, '"' :: kToolVersion ++ ['"']) ::
      [("spec_version".toList, '"' :: "2.0".toList ++ ['"']),
        ("commands".toList, arrayText (["version".toList, "capabilities".toList, "status".toList,
          "convert".toList].map fun s => '"' :: s ++ ['"'])),
        ("transports".toList, arrayText (["virtual".toList].map fun s => '"' :: s ++ ['"'])),
        ("features".toList, arrayText (["ldf".toList, "e2e".toList, "master".toList,
          "slave".toList, "mock".toList].map fun s => '"' :: s ++ ['"'])),
        ("interfaces".toList, arrayText (["IBus".toList, "IMasterBus".toList, "INode".toList].map
          fun s => '"' :: s ++ ['"'])),
        ("optional_interfaces".toList, arrayText (["IHealthProvider".toList,
          "IMetricsProvider".toList, "IDrainer".toList].map fun s => '"' :: s ++ ['"'])),
        ("adapt".toList, (toString true).toList)]) :=
    objectText_around (by decide +kernel) (by decide +kernel) kToolVersion
  rw [htext]
  refine .object rfl ?_
  simp only [List.cons_append, List.nil_append, List.forall_mem_cons]
  exact ⟨.str rfl, .str rfl, .str rfl, .nat 3, .str hplain, .str rfl,
    isJson_strings (by decide), isJson_strings (by decide), isJson_strings (by decide),
    isJson_strings (by decide), isJson_strings (by decide), .bool true,
    fun _ h => absurd h List.not_mem_nil⟩

end

theorem isJson_message (f : Frame) : IsJson (messageToJson (toMessage f)) := by
  have hplain : ∀ {s : CString}, (∀ c ∈ s, isPlain c = true) → IsJson (quoted s) := fun h =>
    .str (List.all_eq_true.mpr h)
  have hkeys : ((messageMembers f).all fun m => m.1.all isPlain) = true :=
    List.all_eq_true.mpr fun m hm => List.all_eq_true.mpr (messageMembers_plain f m hm)
  rw [messageToJson_toMessage]
  refine .object hkeys ?_
  simp only [messageMembers, List.forall_mem_cons]
  refine ⟨.nat 3, .object (by decide) ?_, hplain (toCString_plain _),
    hplain (base64Encode_isPlain f.data), .str (by decide), .object ?_ ?_,
    fun _ h => absurd h List.not_mem_nil⟩
  · simp only [List.forall_mem_cons]
    exact ⟨.nat 0, .nat 0, .nat 0, fun _ h => absurd h List.not_mem_nil⟩
  · rfl
  · simp only [List.forall_mem_cons]
    exact ⟨hplain (toCString_plain _), hplain (checksumText_plain f.checksumType),
      fun _ h => absurd h List.not_mem_nil⟩

theorem parseFormatFlag_ok {fmt fmt' : CString} {args : List CString}
    (h : parseFormatFlag fmt args = .ok fmt') : fmt' = fmt ∨ fmt' ∈ args := by
  fun_induction parseFormatFlag fmt args with
  | case1 fmt => exact .inl (Except.ok.inj h).symm
  | case2 fmt arg => cases h
  | case3 fmt value rest ih =>
      rcases ih h with rfl | hmem
      · exact .inr (List.mem_cons_of_mem _ List.mem_cons_self)
      · exact .inr (List.mem_cons_of_mem _ (List.mem_cons_of_mem _ hmem))
  | case4 fmt arg value rest harg => cases h

/-- One line of JSON, and nothing else. -/
def JsonLine (stdout : CString) : Prop := ∃ text, IsJson text ∧ '\n' ∉ text ∧ stdout = text ++ ['\n']

theorem jsonLine {text : CString} (h : IsJson text) : JsonLine (text ++ ['\n']) :=
  ⟨text, h, h.one_line, rfl⟩

theorem formatted_ok {json text : CString} (hjson : IsJson json) {args : List CString}
    (h : (formatted (report json text) args).exitCode = 0) :
    JsonLine (formatted (report json text) args).stdout ∨
      "text".toList ∈ args ∧ (formatted (report json text) args).stdout = text := by
  unfold formatted at h ⊢
  cases hfmt : parseFormatFlag "json".toList args with
  | error e =>
      rw [hfmt] at h
      cases h
  | ok fmt =>
      rw [hfmt] at h
      simp only [report] at h ⊢
      split_ifs at h ⊢ with his htext
      · exact .inl (jsonLine hjson)
      · refine .inr ⟨?_, rfl⟩
        rcases parseFormatFlag_ok hfmt with heq | hmem
        · exact absurd heq his
        · rwa [htext] at hmem
      · cases h

/-- Whatever the arguments and the input, a run that succeeds prints one line of JSON; only
`version` and `status` have another text, and print it when `text` is asked for. -/
theorem prints_json (kToolVersion : CString) (hplain : kToolVersion.all isPlain = true)
    (args : List CString) (stdin : CString) (h : (main kToolVersion args stdin).exitCode = 0) :
    JsonLine (main kToolVersion args stdin).stdout ∨
      "text".toList ∈ args ∧ ((main kToolVersion args stdin).stdout = versionText kToolVersion ∨
        (main kToolVersion args stdin).stdout = statusText kToolVersion) := by
  cases args with
  | nil => cases h
  | cons cmd args =>
      by_cases hconvert : cmd = "convert".toList
      · subst hconvert
        obtain ⟨f, -, hmain⟩ := cmd_of_convert h
        rw [hmain]
        exact .inl (jsonLine (isJson_message f))
      · unfold main at h ⊢
        simp only [if_neg hconvert] at h ⊢
        split_ifs at h ⊢ with hversion hcapabilities hstatus
        · exact (formatted_ok (versionJson_isJson hplain) h).imp_right
            fun ⟨hmem, htext⟩ => ⟨List.mem_cons_of_mem _ hmem, .inl htext⟩
        · exact .inl (jsonLine (capabilitiesJson_isJson hplain))
        · exact (formatted_ok (statusJson_isJson hplain) h).imp_right
            fun ⟨hmem, htext⟩ => ⟨List.mem_cons_of_mem _ hmem, .inr htext⟩
        · cases h

theorem prints_json_status :
    JsonLine (main "0.4.2".toList ["status".toList, "--format".toList, "json".toList] []).stdout := by
  have hprints := prints_json "0.4.2".toList (by decide)
    ["status".toList, "--format".toList, "json".toList] [] (by decide)
  exact hprints.resolve_right fun h => absurd h.1 (by decide)

end CppLin.Cli
