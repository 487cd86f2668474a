import Mathlib.Data.Nat.Digits.Lemmas
import Mathlib.Tactic

/-!
# Links to entities

`createHmId` writes a link by joining a path, a query and a fragment, and `unpackHmId` splits it
again.  The texts are given by their UTF-16 code units, and the positions of a range by the
numbers they are.
-/

namespace Mintter.Frontend

/-- A text as JavaScript has it: a list of units of 16 bits. -/
abbrev Text := List UInt16

/-- The unit of a character that needs only one. -/
def unit (char : Char) : UInt16 := UInt16.ofNat char.toNat

/-- A text that is written in the code. -/
def literal (chars : List Char) : Text := chars.map unit

/-! ## Parts of a link -/

/-- The types of entities that a link can name. -/
inductive EntityType where
  | a
  | d
  | g
  | c
deriving DecidableEq

/-- The letter of a type in a link. -/
def EntityType.text : EntityType → Text
  | .a => literal ['a']
  | .d => literal ['d']
  | .g => literal ['g']
  | .c => literal ['c']

/-- The keys that every object has. -/
def prototypeKeys : List Text :=
  ["constructor", "__defineGetter__", "__defineSetter__", "hasOwnProperty", "__lookupGetter__",
    "__lookupSetter__", "isPrototypeOf", "propertyIsEnumerable", "toString", "valueOf",
    "__proto__", "toLocaleString"].map fun key => literal key.toList

/-- The key, if there is a value for it. -/
def inKeys (key : Text) : Option Text :=
  if key ∈ [EntityType.a, .d, .g, .c].map EntityType.text ∨ key ∈ prototypeKeys then some key
  else none

/-- The part of a block that is referred to: between two positions, or expanded. -/
inductive BlockRange where
  | between (start stop : Nat)
  | expanded (expanded : Bool)
deriving DecidableEq

/-- An author that is undefined is `none`. -/
inductive PublicationVariant where
  | group (groupId : Text) (pathName : Option Text)
  | author (author : Option Text)
deriving DecidableEq

/-- What a link can be made of besides its type and its entity; what is null is `none`. -/
structure LinkOptions where
  version : Option Text
  blockRef : Option Text
  blockRange : Option BlockRange
  groupPathName : Option Text
  variants : Option (List PublicationVariant)
  latest : Bool

/-- What a text is taken for in a condition. -/
def truthy (text : Option Text) : Option Text := text.filter (· ≠ [])

/--
The parts of the platform that links go through: how a URL is written, and how the percent signs
of a query are decoded.
-/
structure Platform where
  urlText : Text → Text
  percentDecode : Text → Text

/-! ## Reading -/

/-- The block that a fragment names, and its range. -/
structure ParsedFragment where
  blockId : Text
  range : Option BlockRange
deriving DecidableEq

/-- Whether a unit matches `\s` of a regular expression. -/
def isWhiteSpace (u : UInt16) : Bool :=
  (9 ≤ u ∧ u ≤ 13) ∨ (8192 ≤ u ∧ u ≤ 8202) ∨
    u ∈ [32, 160, 5760, 8232, 8233, 8239, 8287, 12288, 65279]

/-- Whether a unit matches `\d` of a regular expression. -/
def isDigit (u : UInt16) : Bool := 48 ≤ u ∧ u ≤ 57

/-- The number that the digits stand for. -/
def parseInt (digits : Text) : Nat :=
  Nat.ofDigits 10 (digits.reverse.map fun u => u.toNat - 48)

/-- What may follow the eight units of a block reference. -/
def parseSuffix (suffix : Text) : Option (Option BlockRange) :=
  if suffix = [] then some none
  else if suffix = literal ['+'] then some (some (.expanded true))
  else
    let start := (suffix.drop 1).takeWhile isDigit
    let rest := (suffix.drop 1).dropWhile isDigit
    let stop := (rest.drop 1).takeWhile isDigit
    if suffix.head? = some (unit '[') ∧ start ≠ [] ∧ rest.head? = some (unit ':') ∧ stop ≠ [] ∧
        (rest.drop 1).dropWhile isDigit = literal [']'] then
      some (some (.between (parseInt start) (parseInt stop)))
    else none

/-- Split a fragment into the reference of the block, which has eight units, and the range. -/
def parseFragment (input : Option Text) : Option ParsedFragment :=
  (truthy input).map fun input =>
    if 8 ≤ input.length ∧ (input.take 8).all (! isWhiteSpace ·) then
      match parseSuffix (input.drop 8) with
      | some range => ⟨input.take 8, range⟩
      | none => ⟨input, none⟩
    else ⟨input, none⟩

/-- The parts before and behind the first occurrence of a separator. -/
def cutText (separator : Text) : Text → Option (Text × Text)
  | [] => none
  | u :: rest =>
      if separator <+: u :: rest then some ([], (u :: rest).drop separator.length)
      else (cutText separator rest).map fun (before, behind) => (u :: before, behind)

/-- A parameter of a query. -/
def parseParameter (p : Platform) (text : Text) : Text × Text :=
  let decode (part : Text) := p.percentDecode
    (part.map fun u => if u = unit '+' then unit ' ' else u)
  (decode (text.takeWhile (· ≠ unit '=')), decode ((text.dropWhile (· ≠ unit '=')).drop 1))

/-- The parameters of a URL. -/
abbrev Query := List (Text × Text)

/-- The parameters of a query string, without the empty ones. -/
def parseQuery (p : Platform) (queryString : Option Text) : Query :=
  ((queryString.getD []).splitOn (unit '&')).filter (· ≠ []) |>.map (parseParameter p)

/-- The first value of a parameter. -/
def Query.get (query : Query) (name : Text) : Option Text :=
  (query.find? (·.1 = name)).map Prod.snd

/-- Whether a parameter is there. -/
def Query.has (query : Query) (name : Text) : Bool := query.any (·.1 = name)

/-- The parts of a custom URL. -/
structure ParsedURL where
  scheme : Text
  path : List Text
  query : Query
  fragment : Option Text

/-- Split a URL into its parts. -/
def parseCustomURL (p : Platform) (url : Text) : Option ParsedURL :=
  (cutText (literal [':', '/', '/']) url).bind fun (scheme, behind) =>
    let rest := match cutText (literal [':', '/', '/']) behind with
      | some (rest, _) => rest
      | none => behind
    if rest = [] then none
    else
      let parts := rest.splitOn (unit '#')
      let pathAndQuery := (parts.headD []).splitOn (unit '?')
      some {
        scheme := scheme
        path := (pathAndQuery.headD []).splitOn (unit '/')
        query := parseQuery p pathAndQuery[1]?
        fragment := parts[1]? }

/-- The link to an entity without further options. -/
def createPlainId (p : Platform) (type eid : Text) : Text :=
  p.urlText (literal ['h', 'm', ':', '/', '/'] ++ type ++ unit '/' :: eid)

/-- How a value that is not there is written. -/
def written (text : Option Text) : Text :=
  text.getD (literal ['u', 'n', 'd', 'e', 'f', 'i', 'n', 'e', 'd'])

/-- Read one variant: a group with its path name, or an author. -/
def parseVariant (p : Platform) (single : Text) : Option PublicationVariant :=
  if single = [] then none
  else
    let parts := single.splitOnP fun u => u = unit ':' ∨ u = unit '/'
    if parts.headD [] = literal ['g'] then
      some (.group (createPlainId p EntityType.g.text (written parts[1]?)) (truthy parts[2]?))
    else if parts.headD [] = literal ['a'] then some (.author parts[1]?)
    else none

/-- Read the variants of a link, which are separated by dots. -/
def parseVariantsQuery (p : Platform) (variantsString : Option Text) :
    Option (List PublicationVariant) :=
  (truthy variantsString).bind fun variantsString =>
    let variants := (variantsString.splitOn (unit '.')).filterMap (parseVariant p)
    if variants = [] then none else some variants

/-- What is read from a link. -/
structure UnpackedHypermediaId where
  id : Text
  qid : Text
  type : Text
  eid : Option Text
  groupPathName : Option Text
  version : Option Text
  variants : Option (List PublicationVariant)
  blockRef : Option Text
  blockRange : Option BlockRange
  hostname : Option Text
  latest : Bool
  scheme : Text

/-- The path of a link to a web page starts with the host. -/
def unpackParsed (p : Platform) (hypermediaId : Text) (parsed : ParsedURL) (skip : Nat)
    (hostname : Option Text) : Option UnpackedHypermediaId :=
  (parsed.path[skip]?.bind inKeys).map fun type =>
    let fragment := parseFragment parsed.fragment
    { id := hypermediaId
      qid := createPlainId p type (written parsed.path[skip + 1]?)
      type := type
      eid := parsed.path[skip + 1]?
      groupPathName := truthy parsed.path[skip + 2]?
      version := parsed.query.get (literal ['v'])
      variants := parseVariantsQuery p (parsed.query.get (literal ['b']))
      blockRef := fragment.map ParsedFragment.blockId
      blockRange := fragment.bind ParsedFragment.range
      hostname := hostname
      latest := parsed.query.has (literal ['l'])
      scheme := parsed.scheme }

/-- Read a link of the scheme `hm`, or of a web page. -/
def unpackHmId (p : Platform) (hypermediaId : Text) : Option UnpackedHypermediaId :=
  (parseCustomURL p hypermediaId).bind fun parsed =>
    if parsed.scheme = literal ['h', 'm'] then unpackParsed p hypermediaId parsed 0 none
    else if parsed.scheme = literal ['h', 't', 't', 'p', 's'] ∨
        parsed.scheme = literal ['h', 't', 't', 'p'] then
      unpackParsed p hypermediaId parsed 1 parsed.path[0]?
    else none

/-! ## Writing -/

/-- How one variant is written. -/
def variantText (p : Platform) : PublicationVariant → Option Text
  | .group groupId pathName =>
      (unpackHmId p groupId).map fun unpacked =>
        literal ['g', '/'] ++ written unpacked.eid ++
          ((truthy pathName).map (unit '/' :: ·)).getD []
  | .author author => some (literal ['a', '/'] ++ written author)

/-- How the variants are written, separated by dots. -/
def getVariantsParamValue (p : Platform) (variants : List PublicationVariant) : Text :=
  [unit '.'].intercalate (variants.filterMap (variantText p))

/-- The parameters of a link; one without a value is written as its name. -/
def queryEntries (p : Platform) (opts : LinkOptions) : List (Text × Option Text) :=
  ((truthy opts.version).map fun version => (literal ['v'], some version)).toList ++
    ((opts.variants.filter (· ≠ [])).map fun variants =>
      (literal ['b'], some (getVariantsParamValue p variants))).toList ++
    if opts.latest then [(literal ['l'], none)] else []

/-- How one parameter is written. -/
def entryText (entry : Text × Option Text) : Text :=
  match entry.2 with
  | none => entry.1
  | some value => entry.1 ++ unit '=' :: value

/-- How the parameters are written behind the path. -/
def serializeQueryString (query : List (Text × Option Text)) : Text :=
  let queryString := [unit '&'].intercalate (query.map entryText)
  if queryString = [] then [] else unit '?' :: queryString

/-- The digits of a number. -/
def decimal (n : Nat) : Text :=
  if n = 0 then literal ['0']
  else (Nat.digits 10 n).reverse.map fun digit => UInt16.ofNat (digit + 48)

/-- How a range is written behind the reference of its block. -/
def serializeBlockRange : Option BlockRange → Text
  | some (.expanded true) => literal ['+']
  | some (.between start stop) =>
      unit '[' :: decimal start ++ unit ':' :: decimal stop ++ literal [']']
  | _ => []

/-- Write a link. -/
def createHmId (p : Platform) (type : EntityType) (id : Text) (opts : LinkOptions) : Text :=
  let path := type.text ++ unit '/' :: id ++
    ((truthy opts.groupPathName).map (unit '/' :: ·)).getD []
  p.urlText (literal ['h', 'm', ':', '/', '/'] ++ path) ++
    serializeQueryString (queryEntries p opts) ++
    ((truthy opts.blockRef).map fun blockRef =>
      unit '#' :: blockRef ++ serializeBlockRange opts.blockRange).getD []

end Mintter.Frontend
