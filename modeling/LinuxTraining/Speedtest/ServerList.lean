import LinuxTraining.Library.Lines
import LinuxTraining.Speedtest.NearestServers

/-!
`get_nearest_server`: the server list is read piece by piece, and every piece that begins
like a server gives a record. The five texts that `sscanf` stores into live across the
pieces, so what it does not reach in one line is still there from the lines before.
-/
namespace LinuxTraining.Speedtest
open Stdio CString

variable {C D : Type*}

/-- The attributes that are read of a line, in the order of the format. -/
inductive Attribute where
  | url
  | lat
  | lon
  | name
  | country
  deriving DecidableEq

namespace Attribute

def place : Attribute → Nat
  | url => 0
  | lat => 1
  | lon => 2
  | name => 3
  | country => 4

def word : Attribute → Text
  | url => "url".toList
  | lat => "lat".toList
  | lon => "lon".toList
  | name => "name".toList
  | country => "country".toList

end Attribute

def ScannedServer.get (s : ScannedServer) : Attribute → Text
  | .url => s.url
  | .lat => s.lat
  | .lon => s.lon
  | .name => s.name
  | .country => s.country

def serverTag : Text := "<server".toList

/-- `%*[^"]"%255[^"]"` five times; no text in `line` is longer than 254 characters. -/
def serverFormat : List Directive := separatedFormat '"' 10

/-- The conversions `%*[^"]` store nothing, so only every second text goes to a target. -/
def stored (values : List Value) (a : Attribute) (old : Text) : Text :=
  match values[2 * a.place + 1]? with
  | some (.text t) => t
  | _ => old

def scanServer (line : Text) (targets : ScannedServer) : ScannedServer :=
  let values := sscanf serverFormat line
  ⟨stored values .url targets.url, stored values .lat targets.lat,
    stored values .lon targets.lon, stored values .name targets.name,
    stored values .country targets.country⟩

/-- `url`, `lat`, `lon`, `name` and `country` before the first line. -/
def clearedTargets : ScannedServer := ⟨[], [], [], [], []⟩

section Loop
variable [Zero C] [Zero D] [LinearOrder D] (atof : Text → C) (calcDistance : C → C → C → C → D)
  (lat_c lon_c : C)

end Loop

def serverPieces (text : Text) : List Text :=
  ((pieces 254 text).map lineText).filter fun line => serverTag.isPrefixOf line

def records (targets : ScannedServer) : List Text → List ScannedServer
  | [] => []
  | line :: more => scanServer line targets :: records (scanServer line targets) more

def targetsAfter (targets : ScannedServer) (servers : List Text) : ScannedServer :=
  servers.foldl (fun targets line => scanServer line targets) targets

def quotedTexts : List Text → List (Text × Text)
  | before :: value :: next :: more => (before, value) :: quotedTexts (next :: more)
  | _ => []

/-- The attribute of that name; a line without it leaves it empty. -/
def attributeOf (line : Text) (a : Attribute) : Text :=
  match (quotedTexts (line.splitOn '"')).find? fun quoted =>
      (' ' :: a.word ++ ['=']).isSuffixOf quoted.1 with
  | some (_, value) => value
  | none => []

def recordsOf (before : List Text) (line : Text) : List ScannedServer :=
  records (targetsAfter clearedTargets (before.flatMap serverPieces)) (serverPieces line)

/-- What the scan of one piece finds at the place of an attribute. -/
def found (piece : Text) (a : Attribute) : Option Text :=
  ((piece.splitOn '"').takeWhile fun part => part ≠ [])[2 * a.place + 1]?

/-- All five attributes are found in the first 254 characters of the line, and what is
found in any piece of it are the attributes of the line. -/
structure ShowsAttributes (line : Text) : Prop where
  all : ∀ a, (found (lineText (fgets 254 line).1) a).isSome
  own : ∀ piece ∈ serverPieces line, ∀ a, ∀ value ∈ found piece a, value = attributeOf line a

variable {old targets : ScannedServer} {piece line : Text} {a : Attribute}

theorem ScannedServer.ext_get {s t : ScannedServer} (h : s.get = t.get) : s = t := by
  have hurl : s.url = t.url := congrFun h .url
  have hlat : s.lat = t.lat := congrFun h .lat
  have hlon : s.lon = t.lon := congrFun h .lon
  have hname : s.name = t.name := congrFun h .name
  have hcountry : s.country = t.country := congrFun h .country
  cases s
  cases t
  simp only [ScannedServer.mk.injEq]
  exact ⟨hurl, hlat, hlon, hname, hcountry⟩

theorem Attribute.place_lt (a : Attribute) : 2 * a.place + 1 < 10 := by
  cases a <;> decide

theorem stored_eq (line : Text) (a : Attribute) (old : Text) :
    stored (sscanf serverFormat line) a old = (found line a).getD old := by
  rw [stored, serverFormat, sscanf_separated, ← List.take_takeWhile, List.getElem?_map,
    List.getElem?_take_of_lt a.place_lt, ← found]
  cases found line a <;> rfl

/-- One scan: what is found is stored, and the other targets are left alone. -/
theorem scanServer_get (line : Text) (targets : ScannedServer) (a : Attribute) :
    (scanServer line targets).get a = (found line a).getD (targets.get a) := by
  cases a <;> exact stored_eq line _ _

theorem serverPieces_line (htag : serverTag <+: line) :
    serverPieces line = lineText (fgets 254 line).1 :: serverPieces (fgets 254 line).2 := by
  have hne : line ≠ [] := by
    rintro rfl
    exact absurd (List.prefix_nil.mp htag) (by decide)
  have hfirst : serverTag <+: lineText (fgets 254 line).1 :=
    (prefix_lineText (by decide) _).mpr ((prefix_fgets 254 line (by decide) (by decide)).mpr htag)
  rw [serverPieces, pieces_cons (by decide) hne, List.map_cons,
    List.filter_cons_of_pos (List.isPrefixOf_iff_prefix.mpr hfirst), serverPieces]

/-- The pieces of a file are those of its lines. -/
theorem serverPieces_file (file : Text) :
    serverPieces file = (lines file).flatMap serverPieces := by
  rw [serverPieces, pieces_eq_flatMap (by decide), List.map_flatMap, List.filter_flatMap]
  rfl

theorem records_append (targets : ScannedServer) (servers more : List Text) :
    records targets (servers ++ more) =
      records targets servers ++ records (targetsAfter targets servers) more := by
  induction servers generalizing targets with
  | nil => rfl
  | cons line servers ih =>
      rw [List.cons_append, records, records, ih]
      rfl

/-- Where the records of a line stand among those of the file. -/
theorem records_file {file : Text} {before after : List Text}
    (h : lines file = before ++ line :: after) :
    ∃ earlier later, records clearedTargets (serverPieces file) =
      earlier ++ recordsOf before line ++ later := by
  rw [serverPieces_file, h, List.flatMap_append, List.flatMap_cons, records_append,
    records_append, ← List.append_assoc]
  exact ⟨_, _, rfl⟩

/-- One scan of a piece gives the record, if what it does not find is already there. -/
theorem scanServer_own {wanted : Attribute → Text}
    (hown : ∀ a, ∀ value ∈ found piece a, value = wanted a)
    (hrest : ∀ a, found piece a = none → targets.get a = wanted a) :
    (scanServer piece targets).get = wanted := by
  funext a
  rw [scanServer_get]
  cases hfound : found piece a with
  | none => exact hrest a hfound
  | some value => exact hown a value hfound

def serverParts (value : Attribute → Text) : List Text :=
  ["<server url=".toList, value .url, " lat=".toList, value .lat, " lon=".toList, value .lon,
    " name=".toList, value .name, " country=".toList, value .country]

def serverHead (value : Attribute → Text) : Text := ['"'].intercalate (serverParts value)

def serverLine (value : Attribute → Text) (rest : Text) : Text := serverHead value ++ '"' :: rest

/-- Texts that may stand in quotes, and a rest in which no other tag begins. -/
structure PlainLine (value : Attribute → Text) (rest : Text) : Prop where
  quoted : ∀ a, '"' ∉ value a
  tag : ∀ a, '<' ∉ value a
  line : ∀ a, '\n' ∉ value a
  text : ∀ a, '\x00' ∉ value a
  rest : '<' ∉ rest

variable {value : Attribute → Text} {rest : Text}

theorem serverParts_forall {P : Text → Prop} (hvalue : ∀ a, P (value a))
    (hwords : P "<server url=".toList ∧ P " lat=".toList ∧ P " lon=".toList ∧
      P " name=".toList ∧ P " country=".toList) : ∀ part ∈ serverParts value, P part := by
  obtain ⟨hurl, hlat, hlon, hname, hcountry⟩ := hwords
  intro part hpart
  simp only [serverParts, List.mem_cons, List.not_mem_nil, or_false] at hpart
  rcases hpart with rfl | rfl | rfl | rfl | rfl | rfl | rfl | rfl | rfl | rfl
  all_goals first | exact hvalue _ | assumption

theorem serverHead_splitOn (h : PlainLine value rest) :
    (serverHead value).splitOn '"' = serverParts value :=
  List.splitOn_intercalate '"' (serverParts_forall h.quoted (by decide)) (List.cons_ne_nil _ _)

theorem serverParts_get (value : Attribute → Text) (a : Attribute) (more : List Text) :
    (serverParts value ++ more)[2 * a.place + 1]? = some (value a) := by
  cases a <;> rfl

theorem attributeOf_serverLine (h : PlainLine value rest) (a : Attribute) :
    attributeOf (serverLine value rest) a = value a := by
  rw [attributeOf, serverLine, List.splitOn_append_cons_self, serverHead_splitOn h]
  cases hmore : rest.splitOn '"' with
  | nil => exact absurd hmore (List.splitOn_ne_nil _ _)
  | cons next more => cases a <;> rfl

theorem found_some {v : Text} (h : found piece a = some v) :
    v ≠ [] ∧ (piece.splitOn '"')[2 * a.place + 1]? = some v := by
  obtain ⟨hlt, hget⟩ := List.getElem?_eq_some_iff.mp h
  refine ⟨?_, ?_⟩
  · have hmem := List.mem_of_getElem? h
    simpa using List.mem_takeWhile_imp hmem
  · rw [List.prefix_iff_getElem?.mp (List.takeWhile_prefix _) _ hlt, hget]

theorem serverHead_avoids {c : Char} (hquote : c ≠ '"') (hvalue : ∀ a, c ∉ value a)
    (hwords : c ∉ "<server url=".toList ∧ c ∉ " lat=".toList ∧ c ∉ " lon=".toList ∧
      c ∉ " name=".toList ∧ c ∉ " country=".toList) : c ∉ serverHead value :=
  not_mem_intercalate hquote (serverParts_forall (P := fun part => c ∉ part) hvalue hwords)

theorem serverLine_tag (h : PlainLine value rest) :
    ∃ tail, serverLine value rest = '<' :: tail ∧ '<' ∉ tail := by
  have hvalue : ∀ a, '<' ∉ (value a).drop 1 := fun a hmem =>
    h.tag a (List.mem_of_mem_drop hmem)
  have hparts := serverParts_forall (P := fun part => '<' ∉ part.drop 1) hvalue (by decide)
  have hmore : ∀ part ∈ "server url=".toList :: (serverParts value).tail, '<' ∉ part := by
    intro part hpart
    simp only [serverParts, List.tail_cons, List.mem_cons, List.not_mem_nil, or_false] at hpart
    rcases hpart with rfl | rfl | rfl | rfl | rfl | rfl | rfl | rfl | rfl | rfl
    all_goals first | exact h.tag _ | decide
  refine ⟨['"'].intercalate ("server url=".toList :: (serverParts value).tail) ++ '"' :: rest,
    rfl, fun htag => ?_⟩
  cases List.mem_append.mp htag with
  | inl hhead => exact not_mem_intercalate (by decide) hmore hhead
  | inr hrest =>
      cases List.mem_cons.mp hrest with
      | inl hquote => exact absurd hquote (by decide)
      | inr hrest => exact h.rest hrest

/-- The values are found where a piece has the whole head of the line. -/
theorem found_front (h : PlainLine value rest) {after : Text}
    (hafter : after = [] ∨ ∃ more, after = '"' :: more) :
    (∀ a v, found (serverHead value ++ after) a = some v → v = value a) ∧
      ((∀ a, value a ≠ []) → ∀ a, found (serverHead value ++ after) a = some (value a)) := by
  have hparts : ∃ more, (serverHead value ++ after).splitOn '"' = serverParts value ++ more := by
    cases hafter with
    | inl hnil => exact ⟨[], by rw [hnil, List.append_nil, List.append_nil, serverHead_splitOn h]⟩
    | inr hquote =>
        obtain ⟨more, rfl⟩ := hquote
        exact ⟨more.splitOn '"', by rw [List.splitOn_append_cons_self, serverHead_splitOn h]⟩
  obtain ⟨more, hparts⟩ := hparts
  refine ⟨fun a v hfound => ?_, fun hne a => ?_⟩
  · have hpart := (found_some hfound).2
    rw [hparts, serverParts_get] at hpart
    exact (Option.some.inj hpart).symm
  · have hall := serverParts_forall (P := fun part => decide (part ≠ []) = true)
      (fun a => decide_eq_true (hne a)) (by decide)
    rw [found, hparts, List.takeWhile_append_of_pos hall, serverParts_get]

/-- A piece that ends before the head of the line does cuts the last value, or has none. -/
theorem not_found_cut (h : PlainLine value rest) {n : Nat} (hcut : n < (serverHead value).length) :
    found ((serverHead value).take n) .country ≠ some (value .country) := by
  intro hfound
  have hpart := (found_some hfound).2
  have hhead : serverHead value =
      ['"'].intercalate ((serverParts value).take 9) ++ '"' :: value .country := by
    simp [serverHead, serverParts, List.intercalate]
  have hfront : (['"'].intercalate ((serverParts value).take 9)).splitOn '"' =
      (serverParts value).take 9 :=
    List.splitOn_intercalate '"' (fun part hmem => serverParts_forall (P := fun part => '"' ∉ part)
      h.quoted (by decide) part (List.mem_of_mem_take hmem)) (List.cons_ne_nil _ _)
  generalize ['"'].intercalate ((serverParts value).take 9) = front at hhead hfront
  rw [hhead] at hcut hpart
  by_cases hn : n ≤ front.length
  · -- at most nine parts
    rw [List.take_append_of_le_length hn] at hpart
    have hcount := ((List.take_prefix n front).sublist).count_le '"'
    have hlength := congrArg List.length hfront
    obtain ⟨hlt, -⟩ := List.getElem?_eq_some_iff.mp hpart
    rw [length_splitOn] at hlt hlength
    have hnine : ((serverParts value).take 9).length = 9 := rfl
    have hplace : 2 * Attribute.country.place + 1 = 9 := rfl
    omega
  · -- the last part is cut
    obtain ⟨j, rfl⟩ : ∃ j, n = front.length + (1 + j) := ⟨n - front.length - 1, by omega⟩
    rw [List.length_append, List.length_cons] at hcut
    have hplain : '"' ∉ (value .country).take j := fun hmem =>
      h.quoted .country (List.mem_of_mem_take hmem)
    rw [List.take_length_add_append, Nat.add_comm 1 j, List.take_succ_cons,
      List.splitOn_append_cons_self, hfront, List.splitOn_eq_singleton hplain] at hpart
    have hcountry : (value .country).take j = value .country := Option.some.inj hpart
    have hshort := congrArg List.length hcountry
    rw [List.length_take] at hshort
    omega

theorem serverPieces_serverLine (h : PlainLine value rest) :
    serverPieces (serverLine value rest) =
      [lineText (fgets 254 (serverLine value rest)).1] := by
  have htag : serverTag <+: serverLine value rest := ⟨_, rfl⟩
  obtain ⟨tail, htail, htags⟩ := serverLine_tag h
  have hrest : '<' ∉ (fgets 254 (serverLine value rest)).2 := by
    have happend := fgets_append 254 (serverLine value rest)
    cases hfirst : (fgets 254 (serverLine value rest)).1 with
    | nil => exact absurd hfirst (fgets_ne_nil (by decide) (List.cons_ne_nil _ _))
    | cons c first =>
        rw [hfirst, List.cons_append] at happend
        rw [← (List.cons.inj (happend.trans htail)).2] at htags
        exact fun hmem => htags (List.mem_append_right first hmem)
  rw [serverPieces_line htag, List.cons.injEq]
  refine ⟨rfl, List.filter_eq_nil_iff.mpr ?_⟩
  intro text htext hprefix
  obtain ⟨piece, hpiece, rfl⟩ := List.mem_map.mp htext
  have hmem := ((List.isPrefixOf_iff_prefix.mp hprefix).trans (List.takeWhile_prefix _)).subset
    (show '<' ∈ serverTag by decide)
  exact hrest (mem_of_mem_pieces (by decide) hpiece hmem)

/-- A line as it is in the list shows its attributes exactly if none of them is empty and
they stand in the first 254 characters. -/
theorem showsAttributes_serverLine (h : PlainLine value rest) :
    ShowsAttributes (serverLine value rest) ↔
      (∀ a, value a ≠ []) ∧ (serverHead value).length ≤ 254 := by
  have hline : '\n' ∉ serverHead value := serverHead_avoids (by decide) h.line (by decide)
  have htext : '\x00' ∉ serverHead value := serverHead_avoids (by decide) h.text (by decide)
  have hpieces := serverPieces_serverLine h
  have hfirst : lineText (fgets 254 (serverLine value rest)).1 ∈
      serverPieces (serverLine value rest) := by
    rw [hpieces]
    exact List.mem_singleton_self _
  by_cases hfits : (serverHead value).length ≤ 254
  · obtain ⟨after, hpiece, hafter⟩ : ∃ after, lineText (fgets 254 (serverLine value rest)).1 =
        serverHead value ++ after ∧ (after = [] ∨ ∃ more, after = '"' :: more) := by
      rw [serverLine, fgets_front hline hfits, lineText_append htext]
      refine ⟨_, rfl, ?_⟩
      cases 254 - (serverHead value).length with
      | zero => exact .inl rfl
      | succ room => exact .inr ⟨_, rfl⟩
    obtain ⟨hvalues, hfound⟩ := found_front h hafter
    constructor
    · refine fun hshows => ⟨fun a => ?_, hfits⟩
      obtain ⟨v, hv⟩ := Option.isSome_iff_exists.mp (hshows.all a)
      rw [hpiece] at hv
      rw [← hvalues a v hv]
      exact (found_some hv).1
    · rintro ⟨hne, -⟩
      refine ⟨fun a => ?_, fun piece hmem a v hv => ?_⟩
      · rw [hpiece, hfound hne a]
        rfl
      · rw [hpieces, List.mem_singleton, hpiece] at hmem
        rw [hmem] at hv
        rw [attributeOf_serverLine h]
        exact hvalues a v hv
  · refine ⟨fun hshows => absurd ?_ (not_found_cut h (Nat.not_le.mp hfits)), fun hcond =>
      absurd hcond.2 hfits⟩
    have hpiece : lineText (fgets 254 (serverLine value rest)).1 = (serverHead value).take 254 := by
      rw [serverLine, fgets_part hline (Nat.le_of_not_le hfits)]
      exact lineText_plain fun hnul => htext (List.mem_of_mem_take hnul)
    obtain ⟨v, hv⟩ := Option.isSome_iff_exists.mp (hshows.all .country)
    have hvalue := hshows.own _ hfirst .country v hv
    rw [attributeOf_serverLine h] at hvalue
    rw [← hpiece, hv, hvalue]

section Loop
variable [Zero C] [Zero D] [LinearOrder D] (atof : Text → C) (calcDistance : C → C → C → C → D)
  (lat_c lon_c : C)

end Loop

end LinuxTraining.Speedtest
