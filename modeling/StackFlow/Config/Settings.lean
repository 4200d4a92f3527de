import StackFlow.Config.Toml.Document
import StackFlow.Misuse
import StackFlow.Number.Unsigned
import StackFlow.Variants

/-!
# Settings

How options are chosen: by single settings, by a TOML document, or by a number in
the environment.

* `Options.ofToml` reads a document on top of the defaults and validates the result.
* `Options.load` does so for a file, and checks the variants it names.
* `Options.ofSettings` applies settings from left to right; the first one that
  cannot be honoured wins.
-/

namespace StackFlow

/-- Why a configuration cannot be used. -/
inductive ConfigError where
  /-- The text is no document, or a known key has a value of the wrong type. -/
  | unreadable
  | invalid (e : OptionsError)
  | variants (e : FlowError)
  | missingFile (path : String)
  | inFile (path : String) (e : ConfigError)

namespace ConfigError

/-- The wording of a configuration error; an unreadable text has none of its own. -/
def message : ConfigError → String
  | unreadable => "parse error"
  | invalid e => e.message
  | variants e => e.message
  | missingFile path => s!"cannot read {path}: open {path}: no such file or directory"
  | inFile path e => s!"{path}: {e.message}"

/-- Whether the cause is a text that cannot be read. -/
def isUnreadable : ConfigError → Bool
  | unreadable => true
  | inFile _ e => e.isUnreadable
  | _ => false

/-- The routine error behind the configuration error, if there is one. -/
def flowError? : ConfigError → Option FlowError
  | variants e => some e
  | inFile _ e => e.flowError?
  | _ => none

end ConfigError

/-! ## Documents -/

namespace Config

open Toml (Value Entries)

/-- The integer a value is. -/
def int? : Value → Option Int64
  | .integer n => some (Int64.ofInt n)
  | _ => none

/-- The truth value a value is. -/
def bool? : Value → Option Bool
  | .boolean b => some b
  | _ => none

/-- The text a value is. -/
def text? : Value → Option String
  | .string s => some s
  | _ => none

/-- The entries of the table a value is. -/
def entries? : Value → Option Entries
  | .table es => some es
  | _ => none

/-- A character of a key without its case.  Besides the capital letters, the long s
and the sign for kelvin are other shapes of a letter. -/
def foldChar (c : Char) : Char :=
  if c = '\u017f' then 's' else if c = '\u212a' then 'k' else c.toLower

/-- A key without its case. -/
def foldKey (k : String) : String := String.ofList (k.toList.map foldChar)

/-- Reads the platform table.  Keys match whatever their case; unknown ones are
ignored. -/
def platform? (p : Platform) (es : Entries) : Option Platform :=
  es.foldlM (fun p (k, v) =>
    match foldKey k with
    | "pointer_size" => (int? v).map ({ p with pointerSize := · })
    | "allocate" => (text? v).map ({ p with allocate := · })
    | "allocate_only" => (text? v).map ({ p with allocateOnly := · })
    | "checked_store" => (text? v).map ({ p with checkedStore := · })
    | "unchecked_store" => (text? v).map ({ p with uncheckedStore := · })
    | _ => some p) p

/-- Reads the table that switches passes. -/
def passes? (p : Passes) (es : Entries) : Option Passes :=
  es.foldlM (fun p (k, v) =>
    match foldKey k with
    | "write_barriers" => (bool? v).map ({ p with writeBarriers := · })
    | "init_markers" => (bool? v).map ({ p with initMarkers := · })
    | "fixed_initialization" => (bool? v).map ({ p with fixedInit := · })
    | _ => some p) p

/-- Reads the log table. -/
def verbosity? (n : Int64) (es : Entries) : Option Int64 :=
  es.foldlM (fun n (k, v) => if foldKey k = "verbosity" then int? v else some n) n

/-- Reads a whole document on top of the given options. -/
def options? (o : Options) (es : Entries) : Option Options :=
  es.foldlM (fun o (k, v) =>
    match foldKey k with
    | "platform" =>
      ((entries? v).bind (platform? o.platform)).map ({ o with platform := · })
    | "optimizer" => ((entries? v).bind (passes? o.passes)).map ({ o with passes := · })
    | "log" => ((entries? v).bind (verbosity? o.verbosity)).map ({ o with verbosity := · })
    | "max_iterations" => (int? v).map ({ o with maxRounds := · })
    | _ => some o) o

end Config

namespace Options

/-- The options that a TOML document chooses on top of the defaults. -/
def ofToml (d : Defaults) (text : String) : Except ConfigError Options :=
  match (Toml.document? text).bind (Config.options? d.options) with
  | none => .error .unreadable
  | some o =>
    match o.validate with
    | .ok () => .ok o
    | .error e => .error (.invalid e)

/-- The options that a file chooses, `text` being what it holds if it exists.  The
variants it names have to fit together. -/
def load (d : Defaults) (path : String) (text : Option String) : Except ConfigError Options :=
  match text with
  | none => .error (.missingFile path)
  | some text =>
    match ofToml d text with
    | .error e => .error (.inFile path e)
    | .ok o =>
      match Variants.ofPlatform o.platform with
      | .ok _ => .ok o
      | .error e => .error (.inFile path (.variants e))

end Options

/-! ## Single settings -/

/-- One choice of a caller. -/
inductive Setting where
  | pointerSize (n : Int64)
  | maxRounds (n : Int64)
  | variants (allocate allocateOnly checkedStore uncheckedStore : String)
  | writeBarriers (on : Bool)
  | initMarkers (on : Bool)
  | fixedInit (on : Bool)
  /-- Everything a TOML document chooses; it replaces all settings before it. -/
  | config (toml : String)

/-- Why settings cannot be honoured. -/
inductive SettingError where
  | misuse (m : Misuse)
  | config (e : ConfigError)

namespace Options

/-- Applies one setting. -/
def set (d : Defaults) (o : Options) : Setting → Except SettingError Options
  | .pointerSize n =>
    if isPointerSize n then .ok { o with platform := { o.platform with pointerSize := n } }
    else .error (.misuse (.pointerSize n))
  | .maxRounds n =>
    if n < 0 then .error (.misuse (.roundLimit n)) else .ok { o with maxRounds := n }
  | .variants allocate allocateOnly checkedStore uncheckedStore =>
    match Variants.ofMnemonics allocate allocateOnly checkedStore uncheckedStore with
    | .error e => .error (.misuse (.variants e))
    | .ok _ =>
      .ok { o with
            platform :=
              { o.platform with allocate, allocateOnly, checkedStore, uncheckedStore } }
  | .writeBarriers on => .ok { o with passes := { o.passes with writeBarriers := on } }
  | .initMarkers on => .ok { o with passes := { o.passes with initMarkers := on } }
  | .fixedInit on => .ok { o with passes := { o.passes with fixedInit := on } }
  | .config toml =>
    match ofToml d toml with
    | .ok o => .ok o
    | .error e => .error (.config e)

/-- Applies settings from left to right on top of the defaults. -/
def ofSettings (d : Defaults) (settings : List Setting) : Except SettingError Options :=
  settings.foldlM (set d) d.options

end Options

/-- The number that the variable `key` of the environment gives, or `default` if it is
unset.  It has to be greater than `least`; numbers beyond 63 bits wrap around. -/
def envNumber (key value : String) (default least : Int64) : Except Misuse Int64 :=
  if value = "" then .ok default
  else
    match Unsigned.read? value with
    | none => .error (.envValue key)
    | some n =>
      let n := Int64.ofInt n
      if n ≤ least then .error (.envTooSmall key) else .ok n

end StackFlow
