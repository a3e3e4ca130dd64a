import Reckoner.Files
import Reckoner.Parser.Log
import Reckoner.Session
import Reckoner.Text.Space
import Reckoner.Yaml.Decode

/-!
# The settings file

What a session starts with can be set in a file. Fields that the file does not mention keep their
defaults; unknown fields, texts that are no use as prompts and blank continuation marks are
refused.
-/
namespace Reckoner

/-- The settings of a calculator. -/
structure Settings where
  prompt : Text := "> "
  continuePrompt : Text := "| "
  continuation : Text := "\\"
  historyFile : Text := "~/.littlecalc_history"
  color : Bool := true
  debug : Bool := false
  tracing : TraceFlags := {}

/-- Why a settings file is refused. -/
inductive SettingsError where
  | unopened (path : Text) (error : FileError)
  | unreadable (path : Text) (error : Yaml.Error)
  | blankContinuation (path : Text)
  | promptLines (path : Text)

def SettingsError.text : SettingsError → Text
  | unopened path error => "config: open " ++ path ++ ": " ++ error.text path
  | unreadable path error => "config: parse " ++ path ++ ": " ++ error.text
  | blankContinuation path => "config: " ++ path ++ ": continuation must not be blank"
  | promptLines path => "config: " ++ path ++ ": prompts must fit on one line"

namespace Settings
open Yaml

/-- The fields of the tracing flags. -/
def tracingFields : List (Decode.Field TraceFlags) := [
  .of "lexer" Decode.boolShape fun b s => { s with lexer := b },
  .of "parser" Decode.boolShape fun b s => { s with parser := b }]

/-- The fields of the settings. -/
def fields : List (Decode.Field Settings) := [
  .of "prompt" Decode.textShape fun t s => { s with prompt := t },
  .of "continue_prompt" Decode.textShape fun t s => { s with continuePrompt := t },
  .of "continuation" Decode.textShape fun t s => { s with continuation := t },
  .of "history_file" Decode.textShape fun t s => { s with historyFile := t },
  .of "color" Decode.boolShape fun b s => { s with color := b },
  .of "debug" Decode.boolShape fun b s => { s with debug := b },
  .record "tracing" "config.Tracing" true tracingFields tracing fun t s => { s with tracing := t }]

/-- Whether a prompt would break the line. -/
def breaksLine (t : Text) : Bool := t.any fun b => b == 10 || b == 13

/-- Reads settings from the text of the file at a path. -/
def ofText (path : Text) (t : Text) : Except SettingsError Settings :=
  match Yaml.decode (Decode.record "config.Config" true fields) {} t with
  | .error e => .error (.unreadable path e)
  | .ok s =>
    if Text.trimSpace s.continuation = [] then .error (.blankContinuation path)
    else if breaksLine (s.prompt ++ s.continuePrompt) then .error (.promptLines path)
    else .ok s

/-- Reads settings from what stands at a path, and takes the defaults if the path is empty or nothing
stands there. -/
def load (path : Text) (file : Except FileError Text) : Except SettingsError Settings :=
  if path = [] then .ok {}
  else
    match file with
    | .ok t => ofText path t
    | .error .missing => .ok {}
    | .error .isDirectory =>
      .error (.unreadable path (.input (FileError.isDirectory.text path)))
    | .error e => .error (.unopened path e)

/-- Where the history is kept: a leading tilde stands for the home directory, which may be unknown.
There is no history if the path is empty. -/
def historyPath (home : Text) (s : Settings) : Text :=
  match s.historyFile with
  | [] => []
  | b :: rest =>
    if b = Text.byte '~' ∧ (rest = [] ∨ rest.head? = some Path.separator) then
      if home = [] then [] else Path.append home (rest.drop 1)
    else b :: rest

/-- What a session with these settings shows and looks for. -/
def sessionOptions (s : Settings) : SessionOptions :=
  SessionOptions.orDefault ⟨s.prompt, s.continuePrompt, s.continuation⟩

end Settings
end Reckoner
