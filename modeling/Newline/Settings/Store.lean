/-
Settings by document.

A store holds defaults and, for some documents, settings of their own. A change gives a new
store, so that one that is held stays as it was.

* `Settings.Store.settingsFor` — the settings that count for a document;
* `Settings.Store.apply`, `Settings.Store.applyAll` — changes, one or many.
-/
import Newline.Settings
import Std.Data.HashMap

namespace Newline.Settings

/-- Defaults and the settings of single documents. -/
structure Store where
  /-- The settings of documents without their own. -/
  defaults : Settings := {}
  /-- The settings of single documents, by their addresses. -/
  documents : Std.HashMap String Settings := {}

namespace Store

/-- The settings of a document. -/
def settingsFor (s : Store) (uri : String) : Settings := s.documents.getD uri s.defaults

/-- The store with the given defaults and settings of single documents; of several for one
document the last counts. -/
def ofDocuments (defaults : Settings) (documents : List (String × Settings)) : Store where
  defaults := defaults
  documents := documents.foldl (fun m (uri, settings) => m.insert uri settings) {}

/-- A change of a store. -/
inductive Change
  /-- Another store takes over. -/
  | replace (store : Store)
  /-- Other defaults. -/
  | updateDefaults (defaults : Settings)
  /-- The fields of a JSON object are laid over the defaults. -/
  | mergeDefaults (v : Json)
  /-- Settings of its own for a document. -/
  | setDocument (uri : String) (settings : Settings)
  /-- The defaults for a document again. -/
  | clearDocument (uri : String)
  /-- The defaults for all documents again. -/
  | clearDocuments

/-- The store after a change. -/
def apply (s : Store) : Change → Store
  | .replace store => store
  | .updateDefaults defaults => { s with defaults }
  | .mergeDefaults v => { s with defaults := s.defaults.merge v }
  | .setDocument uri settings => { s with documents := s.documents.insert uri settings }
  | .clearDocument uri => { s with documents := s.documents.erase uri }
  | .clearDocuments => { s with documents := {} }

/-- The store after changes, the first one first. -/
def applyAll (s : Store) (changes : List Change) : Store := changes.foldl apply s

end Store

end Newline.Settings
