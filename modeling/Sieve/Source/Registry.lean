import Sieve.Source.Collect

/-!
# Registry of the loaded schema

A registry holds the document that was parsed last, with the text it was parsed from and where that
text came from. Loading the same text again answers with the document at hand and leaves the origin
as it is; any other text, and any load that is forced, is parsed. Loading again from the origin
always parses.

A request that fails changes nothing. Clearing forgets the document, but not the counts.

## Main definitions

* `Origin`, `Held`, `Registry` — what a registry holds
* `Request`, `Registry.answer` — what may be asked, and what that does
-/

namespace Sieve.Source

open Sieve.Files

/-- Where a schema text came from. -/
inductive Origin where
  | text (source : String)
  | path (path : String) (extensions : List String)
deriving Repr, DecidableEq, Inhabited

/-- A document with the text it was parsed from. -/
structure Held where
  source : String
  origin : Origin
  document : Schema.Document
deriving Repr, DecidableEq, Inhabited

/-- The document at hand, and how often loading found it there or not. -/
structure Registry where
  held : Option Held := none
  hits : Nat := 0
  misses : Nat := 0
deriving Repr, DecidableEq, Inhabited

/-- What may be asked of a registry. -/
inductive Request where
  /-- A text; `forced` parses it even if it is at hand. -/
  | load (source : String) (forced : Bool)
  /-- A file or a directory. -/
  | loadPath (path : String) (extensions : List String)
  /-- The text of the origin, as it is now. -/
  | reload
  /-- To forget the document. -/
  | clear
deriving Repr, DecidableEq, Inhabited

namespace Registry

/-- The share of loads that found their document at hand; zero before the first load. -/
def hitRate (r : Registry) : Float :=
  if r.hits + r.misses = 0 then 0.0 else Float.ofNat r.hits / Float.ofNat (r.hits + r.misses)

/-- The document at hand. -/
def current? (r : Registry) : Option Schema.Document := r.held.map Held.document

/-- Where the document at hand came from. -/
def origin? (r : Registry) : Option Origin := r.held.map Held.origin

/-- Parses a text and holds its document. -/
def store (r : Registry) (origin : Origin) (source : String) : Registry :=
  { r with held := some ⟨source, origin, .parse source⟩, misses := r.misses + 1 }

/-- Loads a text: the document at hand is kept if it was parsed from the same text. -/
def fetch (r : Registry) (origin : Origin) (source : String) : Registry :=
  if r.held.any fun h => h.source == source then { r with hits := r.hits + 1 }
  else r.store origin source

/-- The text of an origin, as it is now. -/
def readOrigin (root : Node) : Origin → Except LoadError String
  | .text source => .ok source
  | .path path extensions => readSource root path extensions

/-- What a request does. -/
def apply (root : Node) (r : Registry) : Request → Except LoadError Registry
  | .load source forced =>
    .ok (if forced then r.store (.text source) source else r.fetch (.text source) source)
  | .loadPath path extensions =>
    (readSource root path extensions).map (r.fetch (.path path extensions))
  | .reload =>
    match r.origin? with
    | none => .error .nothingLoaded
    | some origin => (readOrigin root origin).map (r.store origin)
  | .clear => .ok { r with held := none }

/-- The registry after a request, and the document that answers it; clearing has none. -/
def answer (root : Node) (r : Registry) (q : Request) :
    Registry × Except LoadError (Option Schema.Document) :=
  match r.apply root q with
  | .ok s => (s, .ok s.current?)
  | .error e => (r, .error e)

end Registry

end Sieve.Source
