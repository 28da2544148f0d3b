import JevCode.Data.StreamParser
import JevCode.Text.JsonSyntax
import JevCode.Text.TextDecoder
import JevCode.Text.Trim

namespace JevCode.Sdk

open Data Text Text.JsonSyntax

structure ObjectStore (Hash : Type) where
  sha256 : List UInt8 → Hash
  readFile : Hash → Option (List UInt8)

inductive SnapshotError
  | readFile
  | chunkLength
  | chunkHash
  | dataAfterValue
  | unexpectedEnd
  | expected (u : CodeUnit)
  | objectKey
  | objectSeparator
  | arraySeparator
  | controlCharacter
  | unicodeEscape
  | stringEscape
  | number
  | outOfFuel
  deriving DecidableEq

structure ChunkRef (Hash : Type) where
  hash : Hash
  length : Option Nat

namespace ChunkJsonParser

/-- The chunks from `#chunkIndex` on, the decoder, and `#text` from `#offset` on. -/
structure Source (Hash : Type) where
  chunks : List (ChunkRef Hash)
  decoder : TextDecoder
  text : List CodeUnit

variable {Hash ν : Type} [DecidableEq Hash]

abbrev Parsing (Hash α : Type) := StateT (Source Hash) (Except SnapshotError) α

def Source.ofChunks (chunks : List (ChunkRef Hash)) : Source Hash := ⟨chunks, .fresh, []⟩

section

variable (objects : ObjectStore Hash)

def readChunk (chunk : ChunkRef Hash) : Except SnapshotError (List UInt8) :=
  match objects.readFile chunk.hash with
  | none => .error .readFile
  | some data =>
    if chunk.length.any (· ≠ data.length) then .error .chunkLength
    else if objects.sha256 data ≠ chunk.hash then .error .chunkHash
    else .ok data

def fillFrom (decoder : TextDecoder) : List (ChunkRef Hash) → Except SnapshotError (Source Hash)
  | [] => .ok ⟨[], decoder, []⟩
  | chunk :: chunks =>
    match readChunk objects chunk with
    | .error e => .error e
    | .ok data =>
      let (text, decoder) := decoder.decode data (!chunks.isEmpty)
      if text = [] then fillFrom decoder chunks else .ok ⟨chunks, decoder, charsUnits text⟩

def fill : Parsing Hash Bool := do
  let source ← get
  if source.text = [] then set (← fillFrom objects source.decoder source.chunks)
  return (← get).text ≠ []

def peek : Parsing Hash (Option CodeUnit) := do
  if ← fill objects then return (← get).text.head? else return none

def advance (n : Nat) : Parsing Hash Unit := modify fun source =>
  { source with text := source.text.drop n }

def take : Parsing Hash CodeUnit := do
  match ← peek objects with
  | none => throw .unexpectedEnd
  | some u =>
    advance 1
    return u

def expect (u : CodeUnit) : Parsing Hash Unit := do
  if (← take objects) ≠ u then throw (.expected u)

def isSpaceUnit (u : CodeUnit) : Bool := isSpace (.ofNat u.toNat)

def whitespace : Nat → Parsing Hash Unit
  | 0 => throw .outOfFuel
  | fuel + 1 => do
    if (← peek objects).any isSpaceUnit then
      advance 1
      whitespace fuel

def literal : List CodeUnit → Parsing Hash Unit
  | [] => pure ()
  | u :: us => do
    expect objects u
    literal us

structure StringOutput where
  parts : List (List CodeUnit)
  output : List CodeUnit

def StringOutput.append (s : StringOutput) (value : List CodeUnit) : StringOutput :=
  if (s.output ++ value).length ≥ 64 * 1024 then ⟨s.parts ++ [s.output ++ value], []⟩
  else ⟨s.parts, s.output ++ value⟩

def StringOutput.result (s : StringOutput) : List CodeUnit :=
  if s.parts.length = 0 then s.output else s.parts.flatten ++ s.output

def unescape (u : CodeUnit) : Option CodeUnit :=
  if u = 0x22 then some 0x22
  else if u = 0x5c then some 0x5c
  else if u = 0x2f then some 0x2f
  else if u = 0x62 then some 0x08
  else if u = 0x66 then some 0x0c
  else if u = 0x6e then some 0x0a
  else if u = 0x72 then some 0x0d
  else if u = 0x74 then some 0x09
  else none

def takeHex : Nat → Parsing Hash (List CodeUnit)
  | 0 => pure []
  | n + 1 => do
    let u ← take objects
    return u :: (← takeHex n)

def escape : Parsing Hash CodeUnit := do
  let u ← take objects
  if u = 0x75 then
    let hex ← takeHex objects 4
    if !hex.all isHexDigit then throw .unicodeEscape
    return .ofNat (parseHex hex)
  else
    match unescape u with
    | none => throw .stringEscape
    | some u => return u

def stringLoop : Nat → StringOutput → Parsing Hash (List CodeUnit)
  | 0, _ => throw .outOfFuel
  | fuel + 1, output => do
    if !(← fill objects) then throw .unexpectedEnd
    let run := (← get).text.takeWhile isLiteral
    if run ≠ [] then
      advance run.length
      stringLoop fuel (output.append run)
    else
      let u ← take objects
      if u = quote then return output.result
      if u < 0x20 then throw .controlCharacter
      stringLoop fuel (output.append [← escape objects])

def string (fuel : Nat) : Parsing Hash (List CodeUnit) := do
  expect objects quote
  stringLoop objects fuel ⟨[], []⟩

def endsNumber (u : CodeUnit) : Bool := isSpaceUnit u || u = 0x2c || u = 0x7d || u = 0x5d

def numberLoop : Nat → List CodeUnit → Parsing Hash (List CodeUnit)
  | 0, _ => throw .outOfFuel
  | fuel + 1, text => do
    if (← peek objects).all endsNumber then return text
    numberLoop fuel (text ++ [← take objects])

variable (toNumber : List CodeUnit → ν)

def number (fuel : Nat) : Parsing Hash ν := do
  let text ← numberLoop objects fuel []
  if !isNumber text then throw .number
  return toNumber text

mutual

def value : Nat → Parsing Hash (JsonValue ν)
  | 0 => throw .outOfFuel
  | fuel + 1 => do
    whitespace objects fuel
    let next ← peek objects
    if next = some 0x7b then object fuel
    else if next = some 0x5b then array fuel
    else if next = some 0x22 then return .leaf (.string (← string objects fuel))
    else if next = some 0x74 then
      literal objects [0x74, 0x72, 0x75, 0x65]
      return .leaf (.boolean true)
    else if next = some 0x66 then
      literal objects [0x66, 0x61, 0x6c, 0x73, 0x65]
      return .leaf (.boolean false)
    else if next = some 0x6e then
      literal objects [0x6e, 0x75, 0x6c, 0x6c]
      return .leaf .null
    else return .leaf (.number (← number objects toNumber fuel))

def object : Nat → Parsing Hash (JsonValue ν)
  | 0 => throw .outOfFuel
  | fuel + 1 => do
    expect objects 0x7b
    whitespace objects fuel
    if (← peek objects) = some 0x7d then
      advance 1
      return .obj []
    members fuel []

def members : Nat → List (List CodeUnit × JsonValue ν) → Parsing Hash (JsonValue ν)
  | 0, _ => throw .outOfFuel
  | fuel + 1, result => do
    if (← peek objects) ≠ some quote then throw .objectKey
    let key ← string objects fuel
    whitespace objects fuel
    expect objects colon
    let child ← value fuel
    let result := JsonTree.set key child result
    whitespace objects fuel
    let separator ← take objects
    if separator = 0x7d then return .obj result
    if separator ≠ comma then throw .objectSeparator
    whitespace objects fuel
    members fuel result

def array : Nat → Parsing Hash (JsonValue ν)
  | 0 => throw .outOfFuel
  | fuel + 1 => do
    expect objects 0x5b
    whitespace objects fuel
    if (← peek objects) = some 0x5d then
      advance 1
      return .arr []
    items fuel []

def items : Nat → List (JsonValue ν) → Parsing Hash (JsonValue ν)
  | 0, _ => throw .outOfFuel
  | fuel + 1, result => do
    let child ← value fuel
    let result := result ++ [child]
    whitespace objects fuel
    let separator ← take objects
    if separator = 0x5d then return .arr result
    if separator ≠ comma then throw .arraySeparator
    whitespace objects fuel
    items fuel result

end

def parse (fuel : Nat) : Parsing Hash (JsonValue ν) := do
  let result ← value objects toNumber fuel
  whitespace objects fuel
  if (← peek objects).isSome then throw .dataAfterValue
  return result

end

end ChunkJsonParser

end JevCode.Sdk

namespace JevCode.Sdk.ChunkJsonParser

open Data Text Text.JsonSyntax

variable {Hash ν : Type} [DecidableEq Hash] {objects : ObjectStore Hash}

def Stored (objects : ObjectStore Hash) (chunks : List (ChunkRef Hash))
    (parts : List (List UInt8)) : Prop :=
  List.Forall₂ (fun chunk data => readChunk objects chunk = .ok data) chunks parts

def Holds (objects : ObjectStore Hash) (source : Source Hash) (units : List CodeUnit) : Prop :=
  ∃ parts, Stored objects source.chunks parts ∧
    units = source.text ++ charsUnits (source.decoder.decodeParts parts)

def Ready (objects : ObjectStore Hash) (source : Source Hash) (units : List CodeUnit) : Prop :=
  Holds objects source units ∧ (source.text = [] → units = [])

theorem fillFrom_ready (decoder : TextDecoder) {chunks : List (ChunkRef Hash)}
    {parts : List (List UInt8)} (h : Stored objects chunks parts) :
    ∃ source, fillFrom objects decoder chunks = .ok source ∧
      Ready objects source (charsUnits (decoder.decodeParts parts)) := by
  induction h generalizing decoder with
  | nil => exact ⟨_, rfl, ⟨[], .nil, rfl⟩, fun _ => rfl⟩
  | @cons chunk data chunks parts hchunk hrest ih =>
    have hempty : parts.isEmpty = chunks.isEmpty := by cases hrest <;> rfl
    rw [fillFrom, hchunk]
    simp only [TextDecoder.decodeParts, hempty]
    generalize decoder.decode data (!chunks.isEmpty) = decoded
    obtain ⟨text, decoder⟩ := decoded
    cases text with
    | nil => exact ih decoder
    | cons c text =>
      refine ⟨_, if_neg (List.cons_ne_nil _ _), ⟨parts, hrest, ?_⟩,
        fun hnil => absurd hnil (charsUnits_cons_ne_nil c text)⟩
      rw [charsUnits, List.flatMap_append]
      rfl

theorem fill_eq (source : Source Hash) :
    fill objects source =
      if source.text = [] then
        (fillFrom objects source.decoder source.chunks).map fun filled =>
          (decide (filled.text ≠ []), filled)
      else .ok (true, source) := by
  unfold fill
  change (if source.text = [] then _ else _ : StateT _ _ _) source = _
  split
  case isTrue h =>
    change (StateT.lift (fillFrom objects source.decoder source.chunks) >>= fun filled =>
      _ : StateT _ _ _) source = _
    cases fillFrom objects source.decoder source.chunks <;> rfl
  case isFalse h =>
    change Except.ok (decide (source.text ≠ []), source) = _
    rw [decide_eq_true h]

theorem fill_ready {source : Source Hash} {r : List CodeUnit} (h : Holds objects source r) :
    ∃ filled, fill objects source = .ok (decide (r ≠ []), filled) ∧ Ready objects filled r := by
  rw [fill_eq]
  by_cases htext : source.text = []
  · obtain ⟨parts, hparts, hr⟩ := h
    obtain ⟨filled, hfill, hready⟩ := fillFrom_ready source.decoder hparts
    rw [htext, List.nil_append] at hr
    rw [if_pos htext, hfill, hr]
    refine ⟨filled, ?_, hready⟩
    have hnil : filled.text = [] ↔ charsUnits (source.decoder.decodeParts parts) = [] := by
      refine ⟨hready.2, fun h => ?_⟩
      obtain ⟨parts', -, heq⟩ := hready.1
      rw [h] at heq
      exact (List.append_eq_nil_iff.mp heq.symm).1
    rw [Except.map, decide_eq_decide.mpr (not_congr hnil)]
  · have hr : r ≠ [] := by
      obtain ⟨parts, -, rfl⟩ := h
      exact List.append_ne_nil_of_left_ne_nil htext _
    rw [if_neg htext, decide_eq_true hr]
    exact ⟨source, rfl, h, fun hnil => absurd hnil htext⟩

theorem Ready.text_eq {source : Source Hash} {u : CodeUnit} {r : List CodeUnit}
    (h : Ready objects source (u :: r)) :
    ∃ text, source.text = u :: text := by
  obtain ⟨⟨parts, -, heq⟩, hnil⟩ := h
  cases htext : source.text with
  | nil => cases hnil htext
  | cons v text =>
    rw [htext, List.cons_append] at heq
    rw [(List.cons.inj heq).1]
    exact ⟨text, rfl⟩

theorem Holds.drop {source : Source Hash} (run : List CodeUnit) {r : List CodeUnit}
    (h : Holds objects source (run ++ r)) (hrun : run <+: source.text) :
    Holds objects { source with text := source.text.drop run.length } r := by
  obtain ⟨parts, hparts, heq⟩ := h
  obtain ⟨rest, hrest⟩ := hrun
  refine ⟨parts, hparts, ?_⟩
  rw [← hrest, List.append_assoc, List.append_right_inj] at heq
  rw [← hrest, List.drop_left, heq]

theorem advance_reads (u : CodeUnit) (r : List CodeUnit) :
    Reads (Ready objects) (Holds objects) (fun _ => advance 1) [u] r () := by
  refine .intro fun source hsource => ?_
  obtain ⟨text, htext⟩ := hsource.text_eq
  exact ⟨_, rfl, hsource.1.drop [u] ⟨text, htext.symm⟩⟩

theorem peek_reads (r : List CodeUnit) :
    Reads (Holds objects) (Ready objects) (fun _ => peek objects) [] r r.head? := by
  refine .look (.intro fun source hsource => fill_ready hsource) (.intro fun source hsource => ?_)
  cases r with
  | nil => exact ⟨source, rfl, hsource⟩
  | cons u r =>
    obtain ⟨text, htext⟩ := hsource.text_eq
    refine ⟨source, ?_, hsource⟩
    change Except.ok (source.text.head?, source) = _
    rw [htext]
    rfl

theorem peek_holds (r : List CodeUnit) :
    Reads (Holds objects) (Holds objects) (fun _ => peek objects) [] r r.head? := by
  have h : Reads (Holds objects) (Ready objects) (fun _ => peek objects) [] r r.head? := peek_reads r
  obtain ⟨n, h⟩ := h
  refine ⟨n, fun fuel hfuel source hsource => ?_⟩
  obtain ⟨source, hpeek, hready⟩ := h fuel hfuel source hsource
  exact ⟨source, hpeek, hready.1⟩

theorem take_reads (u : CodeUnit) (r : List CodeUnit) :
    Reads (Holds objects) (Holds objects) (fun _ => take objects) [u] r u :=
  .look (peek_reads (u :: r)) (advance_reads u r).map

theorem expect_reads (u : CodeUnit) (r : List CodeUnit) :
    Reads (Holds objects) (Holds objects) (fun _ => expect objects u) [u] r () := by
  refine .last (take_reads u r) ?_
  simp only [ne_eq, not_true_eq_false, if_false]
  exact .pure r ()

theorem literal_reads (t r : List CodeUnit) :
    Reads (Holds objects) (Holds objects) (fun _ => literal objects t) t r () := by
  induction t with
  | nil => exact .pure r ()
  | cons u t ih => exact .bind (t := [u]) (expect_reads u (t ++ r)) ih

theorem takeHex_reads (t r : List CodeUnit) :
    Reads (Holds objects) (Holds objects) (fun _ => takeHex objects t.length) t r t := by
  induction t with
  | nil => exact .pure r []
  | cons u t ih => exact .bind (t := [u]) (take_reads u (t ++ r)) ih.map

theorem isSpaceUnit_of_isWhite {u : CodeUnit} (h : isWhite u = true) : isSpaceUnit u = true := by
  simp only [isWhite, Bool.or_eq_true, decide_eq_true_eq] at h
  rcases h with ((rfl | rfl) | rfl) | rfl <;> decide

theorem isSpaceUnit_of_printable {u : CodeUnit} (h1 : 33 ≤ u.toNat) (h2 : u.toNat ≤ 126) :
    isSpaceUnit u = false := by
  have hn : (Char.ofNat u.toNat).toNat = u.toNat := toNat_charOfNat (by omega)
  exact isSpace_of_printable (by omega) (by omega)

theorem whitespace_reads (w : White) {r : List CodeUnit}
    (hr : ∀ u ∈ r.head?, isSpaceUnit u = false) :
    Reads (Holds objects) (Holds objects) (whitespace objects) w.text r () := by
  obtain ⟨t, ht⟩ := w
  induction t with
  | nil =>
    refine .succ (fun _ => rfl) (.look (peek_holds r) ?_)
    have hnone : r.head?.any isSpaceUnit = false := by
      cases r with
      | nil => rfl
      | cons u r => simpa using hr u rfl
    simp only [hnone, Bool.false_eq_true, if_false]
    exact .pure r ()
  | cons u t ih =>
    have hu : (List.head? (u :: t ++ r)).any isSpaceUnit = true := by
      simpa using isSpaceUnit_of_isWhite (ht u List.mem_cons_self)
    refine .succ (fun _ => rfl) (.look (peek_reads (u :: t ++ r)) ?_)
    simp only [hu, if_true]
    exact .bind (t :=
      [u]) (advance_reads u (t ++ r)) (ih fun v hv => ht v (List.mem_cons_of_mem _ hv))

theorem StringOutput.result_eq (s : StringOutput) : s.result = s.parts.flatten ++ s.output := by
  unfold result
  split
  next h => rw [List.length_eq_zero_iff.mp h, List.flatten_nil, List.nil_append]
  next => rfl

theorem StringOutput.result_append (s : StringOutput) (value : List CodeUnit) :
    (s.append value).result = s.result ++ value := by
  rw [result_eq, result_eq, append]
  split <;> simp

theorem Escape.unescape_letter (e : Escape) :
    unescape e.letter = some e.value ∧ e.letter ≠ 0x75 := by
  cases e <;> decide

theorem pieces_of_run {run rest r : List CodeUnit} {pieces : List Piece}
    (hrun : ∀ u ∈ run, isLiteral u = true)
    (h : pieces.flatMap Piece.text ++ quote :: r = run ++ rest) :
    ∃ lits more, pieces = lits ++ more ∧ lits.flatMap Piece.text = run ∧ stringValue lits = run := by
  induction run generalizing pieces with
  | nil => exact ⟨[], pieces, rfl, rfl, rfl⟩
  | cons u run ih =>
    have hu := hrun u List.mem_cons_self
    cases pieces with
    | nil =>
      cases (List.cons.inj h).1
      cases hu
    | cons piece pieces =>
      cases piece with
      | lit v hv =>
        obtain ⟨huv, htail⟩ := List.cons.inj h
        cases huv
        obtain ⟨lits, more, rfl, htext, hvalue⟩ :=
          ih (fun u hu => hrun u (List.mem_cons_of_mem _ hu)) htail
        refine ⟨.lit u hv :: lits, more, rfl, ?_, ?_⟩
        · rw [List.flatMap_cons, htext]
          rfl
        · rw [stringValue, List.map_cons, ← stringValue, hvalue]
          rfl
      | esc e =>
        cases (List.cons.inj h).1
        cases hu
      | hex e =>
        cases (List.cons.inj h).1
        cases hu

theorem escape_esc_reads (e : Escape) (r : List CodeUnit) :
    Reads (Holds objects) (Holds objects) (fun _ => escape objects) [e.letter] r e.value := by
  refine .last (take_reads e.letter r) ?_
  rw [if_neg (Escape.unescape_letter e).2, (Escape.unescape_letter e).1]
  exact .pure r e.value

theorem escape_hex_reads (h : HexDigits) (r : List CodeUnit) :
    Reads (Holds objects) (Holds objects) (fun _ => escape objects) (0x75 :: h.digits) r
      (.ofNat (parseHex h.digits)) := by
  refine .bind (t := [0x75]) (take_reads 0x75 (h.digits ++ r)) ?_
  simp only [if_true]
  have hdigits : h.digits.all isHexDigit = true := List.all_eq_true.mpr h.isHexDigit_digits
  have hhex : Reads (Holds objects) (Holds objects) (fun _ => takeHex objects h.digits.length)
      h.digits r h.digits :=
    takeHex_reads h.digits r
  rw [h.length_digits] at hhex
  refine .last hhex ?_
  simp only [hdigits, Bool.not_true, Bool.false_eq_true, if_false]
  exact .pure r _

theorem piece_reads (objects : ObjectStore Hash) (p : Piece) :
    isLiteral p.value = true ∧ p.text = [p.value] ∨
      ∃ t, p.text = backslash :: t ∧
        ∀ r, Reads (Holds objects) (Holds objects) (fun _ => escape objects) t r p.value := by
  cases p with
  | lit u hu => exact .inl ⟨hu, rfl⟩
  | esc e => exact .inr ⟨[e.letter], rfl, escape_esc_reads e⟩
  | hex h => exact .inr ⟨0x75 :: h.digits, rfl, escape_hex_reads h⟩

theorem Ready.run {source : Source Hash} {pieces : List Piece} {r : List CodeUnit}
    (h : Ready objects source (pieces.flatMap Piece.text ++ quote :: r)) :
    ∃ lits more, pieces = lits ++ more ∧ stringValue lits = source.text.takeWhile isLiteral ∧
      Holds objects { source with text := source.text.drop (source.text.takeWhile isLiteral).length }
        (more.flatMap Piece.text ++ quote :: r) := by
  have hstart : source.text.takeWhile isLiteral <+: source.text := List.takeWhile_prefix isLiteral
  obtain ⟨rest, hrest⟩ : ∃ rest, pieces.flatMap Piece.text ++ quote :: r =
      source.text.takeWhile isLiteral ++ rest := by
    obtain ⟨parts, -, heq⟩ := h.1
    obtain ⟨rest, hrest⟩ := hstart
    exact ⟨rest ++ charsUnits
      (source.decoder.decodeParts parts), by rw [heq, ← List.append_assoc, hrest]⟩
  obtain ⟨lits, more, rfl, htext, hvalue⟩ :=
    pieces_of_run (fun u hu => List.mem_takeWhile_imp hu) hrest
  refine ⟨lits, more, rfl, hvalue, ?_⟩
  have hholds := h.1
  rw [List.flatMap_append, List.append_assoc, htext] at hholds
  exact hholds.drop _ hstart

theorem stringLoop_ok {pieces : List Piece} {r : List CodeUnit} {fuel : Nat}
    (hfuel : pieces.length < fuel) (output : StringOutput) {source : Source Hash}
    (hsource : Holds objects source (pieces.flatMap Piece.text ++ quote :: r)) :
    ∃ source', stringLoop objects fuel output source =
      .ok (output.result ++ stringValue pieces, source') ∧
      Holds objects source' r := by
  induction fuel generalizing pieces output source with
  | zero => cases hfuel
  | succ fuel ih =>
    obtain ⟨filled, hfill, hready⟩ := fill_ready hsource
    have hne : pieces.flatMap Piece.text ++ quote :: r ≠ [] := by simp
    rw [decide_eq_true hne] at hfill
    simp only [stringLoop]
    change ∃ source', (fill objects source >>= fun x => _) = _ ∧ _
    rw [hfill]
    change ∃ source', (if filled.text.takeWhile isLiteral ≠ [] then _ else _ : Parsing Hash _)
      filled = _ ∧ _
    by_cases hrun : filled.text.takeWhile isLiteral = []
    · -- the text starts with a quote or a backslash
      rw [if_neg (not_not.mpr hrun)]
      cases pieces with
      | nil =>
        refine Reads.run (Holds objects) (Holds objects) (t := [quote]) (r := r) ?_ hready.1
        refine .last (take_reads quote r) ?_
        rw [if_pos rfl, stringValue, List.map_nil, List.append_nil]
        exact .pure r _
      | cons piece pieces =>
        have hloop (u : CodeUnit) : Reads (Holds objects) (Holds objects)
            (fun _ => stringLoop objects fuel (output.append [u]))
            (pieces.flatMap Piece.text ++ [quote]) r
            (output.result ++ u :: stringValue pieces) := by
          refine .intro fun s hs => ?_
          rw [List.append_assoc] at hs
          have h := ih (Nat.lt_of_succ_lt_succ hfuel) (output.append [u]) hs
          rwa [StringOutput.result_append, List.append_assoc] at h
        rw [stringValue, List.map_cons, ← stringValue]
        rw [List.flatMap_cons] at hready
        obtain ⟨hlit, htext⟩ | ⟨t, htext, hescape⟩ := piece_reads objects piece
        · rw [htext] at hready
          obtain ⟨text, hfilled⟩ := hready.text_eq
          rw [hfilled, List.takeWhile_cons_of_pos hlit] at hrun
          cases hrun
        · refine Reads.run (Holds objects) (Holds objects) (r := r)
            (t := [backslash] ++ (t ++ (pieces.flatMap Piece.text ++ [quote]))) ?_ ?_
          · refine .bind (take_reads backslash _) ?_
            rw [if_neg (by decide), if_neg (by decide)]
            exact .bind (hescape _) (hloop piece.value)
          · simpa [htext] using hready.1
    · rw [if_pos hrun]
      obtain ⟨lits, more, rfl, hvalue, hholds⟩ := hready.run
      have hlits : lits ≠ [] := fun hnil => hrun (by rw [← hvalue, hnil]; rfl)
      have hlength : more.length < fuel := by
        have := List.length_pos_iff.mpr hlits
        rw [List.length_append] at hfuel
        omega
      obtain ⟨source', hloop, hsource'⟩ :=
        ih hlength (output.append (filled.text.takeWhile isLiteral)) hholds
      refine ⟨source', ?_, hsource'⟩
      have hall : stringValue (lits ++ more) = filled.text.takeWhile isLiteral ++
          stringValue more := by
        rw [← hvalue]
        exact List.map_append
      rw [StringOutput.result_append] at hloop
      rw [hall, ← List.append_assoc]
      exact hloop

theorem string_reads (pieces : List Piece) (r : List CodeUnit) :
    Reads (Holds objects) (Holds objects) (string objects) (stringText pieces) r
      (stringValue pieces) := by
  refine .bind (t := [quote]) (u := pieces.flatMap Piece.text ++ [quote]) (expect_reads quote _)
    ⟨pieces.length + 1, fun fuel hfuel source hsource => ?_⟩
  rw [List.append_assoc] at hsource
  exact stringLoop_ok hfuel ⟨[], []⟩ hsource

def Follows (r : List CodeUnit) : Prop := ∀ u ∈ r.head?, endsNumber u = true

theorem numberLoop_reads {t r : List CodeUnit} (ht : ∀ u ∈ t, endsNumber u = false) (hr : Follows r)
    (text : List CodeUnit) :
    Reads (Holds objects) (Holds objects) (fun fuel => numberLoop objects fuel text) t r
      (text ++ t) := by
  induction t generalizing text with
  | nil =>
    refine .succ (fun _ => rfl) (.look (peek_holds r) ?_)
    have hall : r.head?.all endsNumber = true := by
      cases r with
      | nil => rfl
      | cons u r => simpa using hr u rfl
    simp only [hall, if_true, List.append_nil]
    exact .pure r text
  | cons u t ih =>
    have hu : (List.head? (u :: t ++ r)).all endsNumber = false := by
      simpa using ht u List.mem_cons_self
    refine .succ (fun _ => rfl) (.look (peek_holds (u :: t ++ r)) ?_)
    simp only [hu, Bool.false_eq_true, if_false]
    have h := ih (fun v hv => ht v (List.mem_cons_of_mem _ hv)) (text ++ [u])
    rw [List.append_assoc] at h
    exact .bind (t := [u]) (take_reads u (t ++ r)) h

theorem endsNumber_of_isNumberUnit {u : CodeUnit} (h : isNumberUnit u = true) :
    endsNumber u = false := by
  simp only [isNumberUnit, JsonSyntax.isDigit, Bool.or_eq_true, Bool.and_eq_true, decide_eq_true_eq,
    UInt16.le_iff_toNat_le, List.mem_cons, List.not_mem_nil, or_false] at h
  rcases h with ⟨hlow, hhigh⟩ | h
  · simp only [UInt16.reduceToNat] at hlow hhigh
    have hspace : isSpaceUnit u = false := isSpaceUnit_of_printable (by omega) (by omega)
    have hne {v : CodeUnit} (hv : v.toNat < 0x30 ∨ 0x39 < v.toNat) : u ≠ v := by
      rintro rfl
      omega
    simp [endsNumber, hspace, hne (v := 0x2c) (by decide), hne (v := 0x7d) (by decide), hne (v :=
      0x5d) (by decide)]
  · rcases h with rfl | rfl | rfl | rfl | rfl <;> decide

variable {toNumber : List CodeUnit → ν}

theorem number_reads (n : NumberText) {r : List CodeUnit} (hr : Follows r) :
    Reads (Holds objects) (Holds objects) (number objects toNumber) n.text r (toNumber n.text) := by
  obtain ⟨u, t, -, -, hunits⟩ := isNumber_cases n.isNumber_text
  refine .last (numberLoop_reads (fun u hu => endsNumber_of_isNumberUnit (hunits u hu)) hr []) ?_
  simp only [List.nil_append, n.isNumber_text, Bool.not_true, Bool.false_eq_true, if_false]
  exact .pure r _

theorem follows_cons {u : CodeUnit} (hu : endsNumber u = true) (r : List CodeUnit) :
    Follows (u :: r) := by
  rintro v ⟨⟩
  exact hu

theorem follows_white (w : White) {t r : List CodeUnit} (h : Follows (t ++ r)) :
    Follows (w.text ++ t ++ r) := by
  obtain ⟨space, hspace⟩ := w
  cases space with
  | nil => exact h
  | cons u space =>
    refine follows_cons ?_ _
    rw [endsNumber, isSpaceUnit_of_isWhite (hspace u List.mem_cons_self), Bool.true_or,
      Bool.true_or, Bool.true_or]

theorem cons_head_not_space {v : CodeUnit} (h1 : 33 ≤ v.toNat) (h2 : v.toNat ≤ 126)
    (r : List CodeUnit) :
    ∀ u ∈ (v :: r).head?, isSpaceUnit u = false := by
  rintro u ⟨⟩
  exact isSpaceUnit_of_printable h1 h2

theorem value_reads_of (w : White) {u : CodeUnit} {t r : List CodeUnit} {v : JsonValue ν}
    (h1 : 33 ≤ u.toNat) (h2 : u.toNat ≤ 126) (h : Reads (Holds objects) (Holds objects) (fun fuel =>
      if some u = some 0x7b then object objects toNumber fuel
      else if some u = some 0x5b then array objects toNumber fuel
      else if some u = some 0x22 then do return .leaf (.string (← string objects fuel))
      else if some u = some 0x74 then do
        literal objects [0x74, 0x72, 0x75, 0x65]
        return .leaf (.boolean true)
      else if some u = some 0x66 then do
        literal objects [0x66, 0x61, 0x6c, 0x73, 0x65]
        return .leaf (.boolean false)
      else if some u = some 0x6e then do
        literal objects [0x6e, 0x75, 0x6c, 0x6c]
        return .leaf .null
      else do return .leaf (.number (← number objects toNumber fuel))) (u :: t) r v) :
    Reads (Holds objects) (Holds objects) (value objects toNumber) (w.text ++ u :: t) r v := by
  refine .succ (fun _ => by rw [value]) ?_
  exact .bind (whitespace_reads w (cons_head_not_space h1 h2 _)) (.look (peek_holds _) h)

theorem number_value_reads (n : NumberText) (w : White) {r : List CodeUnit} (hr : Follows r) :
    Reads (Holds objects) (Holds objects) (value objects toNumber) (w.text ++ n.text) r
      (.leaf (.number (toNumber n.text))) := by
  have hread : Reads (Holds objects) (Holds objects)
      (fun fuel => number objects toNumber fuel >>= fun x => pure (.leaf (.number x))) n.text r
      (.leaf (.number (toNumber n.text)) : JsonValue ν) := (number_reads n hr).map
  obtain ⟨u, t, ht, hu, -⟩ := isNumber_cases n.isNumber_text
  obtain ⟨h1, h2, hne⟩ : 33 ≤ u.toNat ∧ u.toNat ≤ 0x39 ∧ u ≠ 0x22 := by
    rcases hu with hu | rfl
    · simp only [JsonSyntax.isDigit, Bool.and_eq_true, decide_eq_true_eq, UInt16.le_iff_toNat_le,
        UInt16.reduceToNat] at hu
      refine ⟨by omega, by omega, ?_⟩
      rintro rfl
      exact absurd hu.1 (by decide)
    · decide
  have hlarge {v : CodeUnit} (hv : 0x39 < v.toNat) : ¬some u = some v := by
    rintro ⟨⟩
    omega
  rw [ht] at hread ⊢
  refine value_reads_of w h1 (by omega) ?_
  simp only [if_neg (hlarge (v := 0x7b) (by decide)), if_neg (hlarge (v := 0x5b) (by decide)),
    if_neg (hlarge (v := 0x74) (by decide)), if_neg (hlarge (v := 0x66) (by decide)),
    if_neg (hlarge (v := 0x6e) (by decide)),
      if_neg (fun h : some u = some 0x22 => hne (Option.some.inj h))]
  exact hread

theorem array_reads {t r : List CodeUnit} {v : JsonValue ν} (w : White) {u : CodeUnit}
    (h1 : 33 ≤ u.toNat) (h2 : u.toNat ≤ 126) (hu : u ≠ 0x5d)
    (h : Reads (Holds objects) (Holds objects) (fun fuel => items objects toNumber fuel [])
      (u :: t) r v) :
    Reads (Holds objects) (Holds objects) (array objects toNumber)
      (0x5b :: (w.text ++ u :: t)) r v := by
  refine .succ (fun _ => by rw [array]) (.bind (t := [0x5b]) (expect_reads 0x5b _) ?_)
  refine .bind (whitespace_reads w (cons_head_not_space h1 h2 _)) (.look (peek_holds _) ?_)
  simp only [List.cons_append, List.head?_cons, Option.some.injEq, if_neg hu]
  exact h

theorem emptyArray_reads (w : White) (r : List CodeUnit) :
    Reads (Holds objects) (Holds objects) (array objects toNumber) (0x5b :: (w.text ++ [0x5d])) r
      (.arr []) := by
  refine .succ (fun _ => by rw [array]) (.bind (t := [0x5b]) (expect_reads 0x5b _) ?_)
  refine .bind (whitespace_reads w (cons_head_not_space (by decide) (by decide) _))
    (.look (peek_reads _) ?_)
  exact (advance_reads 0x5d r).map

theorem object_reads {t r : List CodeUnit} {v : JsonValue ν} (w : White)
    (h : Reads (Holds objects) (Holds objects) (fun fuel => members objects toNumber fuel [])
      (quote :: t) r v) :
    Reads (Holds objects) (Holds objects) (object objects toNumber)
      (0x7b :: (w.text ++ quote :: t)) r v := by
  refine .succ (fun _ => by rw [object]) (.bind (t := [0x7b]) (expect_reads 0x7b _) ?_)
  exact .bind (whitespace_reads w (cons_head_not_space (by decide) (by decide) _))
    (.look (peek_holds _) h)

theorem emptyObject_reads (w : White) (r : List CodeUnit) :
    Reads (Holds objects) (Holds objects) (object objects toNumber) (0x7b :: (w.text ++ [0x7d])) r
      (.obj []) := by
  refine .succ (fun _ => by rw [object]) (.bind (t := [0x7b]) (expect_reads 0x7b _) ?_)
  refine .bind (whitespace_reads w (cons_head_not_space (by decide) (by decide) _))
    (.look (peek_reads _) ?_)
  exact (advance_reads 0x7d r).map

mutual

theorem value_reads (d : Doc) (w : White) {r : List CodeUnit} (hr : Follows r) :
    Reads (Holds objects) (Holds objects) (value objects toNumber) (w.text ++ d.text) r
      (d.value toNumber) := by
  cases d with
  | null => exact value_reads_of w (by decide) (by decide) (literal_reads _ r).map
  | boolean b =>
    cases b with
    | true => exact value_reads_of w (by decide) (by decide) (literal_reads _ r).map
    | false => exact value_reads_of w (by decide) (by decide) (literal_reads _ r).map
  | number n => exact number_value_reads n w hr
  | string pieces => exact value_reads_of w (by decide) (by decide) (string_reads pieces r).map
  | emptyArray space => exact value_reads_of w (by decide) (by decide) (emptyArray_reads space r)
  | array is =>
    have hitems := items_reads is [] r
    obtain ⟨u, t, ht, h1, h2, hu⟩ := is.body_eq_cons
    rw [Doc.text, is.text_eq, List.cons_append, List.append_assoc, ht]
    rw [ht] at hitems
    exact value_reads_of w (by decide) (by decide) (array_reads is.before h1 h2 hu hitems)
  | emptyObject space => exact value_reads_of w (by decide) (by decide) (emptyObject_reads space r)
  | object ms =>
    have hmembers := members_reads ms [] r
    obtain ⟨t, ht⟩ := ms.body_eq_cons
    rw [Doc.text, ms.text_eq, List.cons_append, List.append_assoc, ht]
    rw [ht] at hmembers
    exact value_reads_of w (by decide) (by decide) (object_reads ms.before hmembers)

theorem items_reads (is : Items) (result : List (JsonValue ν)) (r : List CodeUnit) :
    Reads (Holds objects) (Holds objects) (fun fuel => items objects toNumber fuel result)
      (is.body ++ [0x5d]) r
      (.arr (result ++ is.values toNumber)) := by
  cases is with
  | one before d after =>
    refine .succ (fun _ => by rw [items]) ?_
    rw [Items.body, List.append_assoc]
    refine .bind (value_reads d .none (follows_white after (follows_cons (by decide) r))) ?_
    refine .bind (whitespace_reads after (cons_head_not_space (by decide) (by decide) _)) ?_
    exact .last (take_reads 0x5d r) (.pure r _)
  | cons before d after rest =>
    have hrest := items_reads rest (result ++ [d.value toNumber]) r
    obtain ⟨u, t, ht, h1, h2, -⟩ := rest.body_eq_cons
    rw [ht, List.append_assoc] at hrest
    refine .succ (fun _ => by rw [items]) ?_
    rw [Items.body, List.append_assoc, List.append_assoc, List.cons_append, rest.text_eq,
      List.append_assoc, ht]
    refine .bind (value_reads d .none (follows_white after (follows_cons (by decide) _))) ?_
    refine .bind (whitespace_reads after (cons_head_not_space (by decide) (by decide) _)) ?_
    refine .bind (t := [comma]) (take_reads comma _) ?_
    exact .bind (whitespace_reads rest.before (cons_head_not_space h1 h2 _)) hrest

theorem members_reads (ms : Members) (result : List (List CodeUnit × JsonValue ν))
    (r : List CodeUnit) :
    Reads (Holds objects) (Holds objects) (fun fuel => members objects toNumber fuel result)
      (ms.body ++ [0x7d]) r
      (.obj ((ms.members toNumber).foldl (fun fields member => JsonTree.set member.1 member.2 fields)
        result)) := by
  cases ms with
  | one before key mid space d after =>
    have htext : (Members.one before key mid space d after).body ++ [0x7d] =
        stringText key ++ (mid.text ++
        ([colon] ++ (space.text ++ d.text ++ (after.text ++ [0x7d])))) := by
      simp [Members.body]
    rw [htext]
    refine .succ (fun _ => by rw [members]) (.look (peek_holds _) ?_)
    refine .bind (string_reads key _) ?_
    refine .bind (whitespace_reads mid (cons_head_not_space (by decide) (by decide) _)) ?_
    refine .bind (t := [colon]) (expect_reads colon _) ?_
    refine .bind (value_reads d space (follows_white after (follows_cons (by decide) r))) ?_
    refine .bind (whitespace_reads after (cons_head_not_space (by decide) (by decide) _)) ?_
    exact .last (take_reads 0x7d r) (.pure r _)
  | cons before key mid space d after rest =>
    have hrest := members_reads rest (JsonTree.set (stringValue key) (d.value toNumber) result) r
    obtain ⟨t, ht⟩ := rest.body_eq_cons
    have htext : (Members.cons before key mid space d after rest).body ++ [0x7d] =
        stringText key ++ (mid.text ++ ([colon] ++ (space.text ++ d.text ++
          (after.text ++ ([comma] ++ (rest.before.text ++ quote :: t)))))) := by
      rw [Members.body, rest.text_eq, ← ht]
      simp only [List.append_assoc, List.cons_append, List.nil_append]
    rw [htext]
    rw [ht] at hrest
    refine .succ (fun _ => by rw [members]) (.look (peek_holds _) ?_)
    refine .bind (string_reads key _) ?_
    refine .bind (whitespace_reads mid (cons_head_not_space (by decide) (by decide) _)) ?_
    refine .bind (t := [colon]) (expect_reads colon _) ?_
    refine .bind (value_reads d space (follows_white after (follows_cons (by decide) _))) ?_
    refine .bind (whitespace_reads after (cons_head_not_space (by decide) (by decide) _)) ?_
    refine .bind (t := [comma]) (take_reads comma _) ?_
    exact .bind (whitespace_reads rest.before (cons_head_not_space (by decide) (by decide) _)) hrest

end

theorem parse_reads (d : Doc) (before after : White) :
    Reads (Holds objects) (Holds objects) (parse objects toNumber)
      (before.text ++ d.text ++ after.text) []
      (d.value toNumber) := by
  have hend : Follows (after.text ++ [] ++ []) := follows_white after fun u hu => nomatch hu
  rw [List.append_nil] at hend
  refine .bind (value_reads d before hend) ?_
  exact .last (whitespace_reads after fun u hu => nomatch hu) (.look (peek_holds []) (.pure [] _))

theorem head_ne_byteOrderMark {t : Chars} {d : Doc} {before after : White}
    (h : charsUnits t = before.text ++ d.text ++ after.text) : t.head? ≠ some byteOrderMark := by
  rintro hhead
  cases t with
  | nil => cases hhead
  | cons c t =>
    cases hhead
    obtain ⟨space, hspace⟩ := before
    obtain ⟨u, text, htext, -, hu, -⟩ := d.text_eq_cons
    rw [htext] at h
    cases space with
    | nil =>
      cases (List.cons.inj h).1
      exact absurd hu (by decide)
    | cons v space =>
      cases (List.cons.inj h).1
      exact absurd (hspace _ List.mem_cons_self) (by decide)

theorem parse_chunks {chunks : List (ChunkRef Hash)} {parts : List (List UInt8)}
    (hstored : Stored objects chunks parts) {t : Chars} (hparts : parts.flatten = utf8Bytes t)
    {d : Doc} {before after : White} (ht : charsUnits t = before.text ++ d.text ++ after.text) :
    ∃ n, ∀ fuel, n ≤ fuel → (parse objects toNumber fuel).run' (.ofChunks chunks) =
      .ok (d.value toNumber) := by
  obtain ⟨n, hparse⟩ : Reads (Holds objects) (Holds objects) (parse objects toNumber) _ [] _ :=
    parse_reads d before after
  refine ⟨n, fun fuel hfuel => ?_⟩
  have hholds : Holds objects (.ofChunks chunks) (before.text ++ d.text ++ after.text ++ []) := by
    refine ⟨parts, hstored, ?_⟩
    rw [List.append_nil, ← ht, Source.ofChunks,
      TextDecoder.decodeParts_utf8Bytes hparts (head_ne_byteOrderMark ht)]
    rfl
  obtain ⟨source, hrun, -⟩ := hparse fuel hfuel _ hholds
  change Prod.fst <$> parse objects toNumber fuel (.ofChunks chunks) = _
  rw [hrun]
  rfl

end JevCode.Sdk.ChunkJsonParser
