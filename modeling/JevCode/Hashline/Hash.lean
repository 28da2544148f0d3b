import JevCode.Text.Lines

namespace JevCode.Hashline

open JevCode.Text

namespace XxHash32

def prime1 : BitVec 32 := 2654435761
def prime2 : BitVec 32 := 2246822519
def prime3 : BitVec 32 := 3266489917
def prime4 : BitVec 32 := 668265263
def prime5 : BitVec 32 := 374761393

def byte (b : UInt8) : BitVec 32 := BitVec.ofNat 32 b.toNat

def word (a b c d : UInt8) : BitVec 32 :=
  BitVec.ofNat 32 (a.toNat + 2 ^ 8 * b.toNat + 2 ^ 16 * c.toNat + 2 ^ 24 * d.toNat)

def round (acc lane : BitVec 32) : BitVec 32 := (acc + lane * prime2).rotateLeft 13 * prime1

def stripes (v1 v2 v3 v4 : BitVec 32) : List UInt8 → BitVec 32 × List UInt8
  | a0 :: a1 :: a2 :: a3 :: b0 :: b1 :: b2 :: b3 :: c0 :: c1 :: c2 :: c3 :: d0 :: d1 ::
    d2 :: d3 :: rest =>
    stripes (round v1 (word a0 a1 a2 a3)) (round v2 (word b0 b1 b2 b3))
      (round v3 (word c0 c1 c2 c3)) (round v4 (word d0 d1 d2 d3)) rest
  | rest => (v1.rotateLeft 1 + v2.rotateLeft 7 + v3.rotateLeft 12 + v4.rotateLeft 18, rest)

def tail (h : BitVec 32) : List UInt8 → BitVec 32
  | a :: b :: c :: d :: rest => tail ((h + word a b c d * prime3).rotateLeft 17 * prime4) rest
  | [a, b, c] => tail ((h + byte a * prime5).rotateLeft 11 * prime1) [b, c]
  | [a, b] => tail ((h + byte a * prime5).rotateLeft 11 * prime1) [b]
  | [a] => (h + byte a * prime5).rotateLeft 11 * prime1
  | [] => h

def avalanche (h : BitVec 32) : BitVec 32 :=
  let h := (h ^^^ (h >>> 15)) * prime2
  let h := (h ^^^ (h >>> 13)) * prime3
  h ^^^ (h >>> 16)

end XxHash32

open XxHash32 in
def xxHash32 (bytes : List UInt8) (seed : BitVec 32) : BitVec 32 :=
  let (h, rest) :=
    if bytes.length < 16 then (seed + prime5, bytes)
    else stripes (seed + prime1 + prime2) (seed + prime2) seed (seed - prime1) bytes
  avalanche (tail (h + BitVec.ofNat 32 bytes.length) rest)

def letters : List Char :=
  ['a', 'b', 'c', 'd', 'e', 'f', 'g', 'h', 'i', 'j', 'k', 'l', 'm', 'n', 'o', 'p', 'q',
    'r', 's', 't',
   'u', 'v', 'w', 'x', 'y', 'z']

def missingSeconds : Char → List Char
  | 'b' => ['q']
  | 'g' => ['k', 'q']
  | 'j' => ['v', 'z']
  | 'k' => ['q', 'z']
  | 'l' => ['q']
  | 'n' => ['q']
  | 'q' => ['f', 'g', 'j', 'k', 'v', 'z']
  | 'r' => ['j']
  | 't' => ['q']
  | 'w' => ['q', 'z']
  | 'x' => ['g', 'j', 'k', 'q', 'v', 'w']
  | 'y' => ['q']
  | 'z' => ['j', 'q', 'v']
  | _ => []

/-- `bigrams.json` lists the two-letter combinations in alphabetical order, 29 of them left out. -/
def bigrams : List String :=
  letters.flatMap fun first =>
    (letters.filter (· ∉ missingSeconds first)).map fun second => String.ofList [first, second]

def rangeInteriorHash : String := "**"

def computeLineHash (_idx : Nat) (line : String) : String :=
  let line := trimEnd (line.toList.filter (· ≠ '\r'))
  let bytes := line.flatMap String.utf8EncodeChar
  bigrams.getD ((xxHash32 bytes 0).toNat % bigrams.length) ""

theorem mem_bigrams {s : String} (h : s ∈ bigrams) :
    ∃ a ∈ letters, ∃ b ∈ letters, s = String.ofList [a, b] := by
  obtain ⟨a, ha, hmap⟩ := List.mem_flatMap.mp h
  obtain ⟨b, hb, rfl⟩ := List.mem_map.mp hmap
  exact ⟨a, ha, b, (List.mem_filter.mp hb).1, rfl⟩

theorem computeLineHash_eq_ofList (idx : Nat) (line : String) :
    ∃ a ∈ letters, ∃ b ∈ letters, computeLineHash idx line = String.ofList [a, b] := by
  have hmem : ∀ i, bigrams.getD (i % bigrams.length) "" ∈ bigrams := by
    intro i
    have hlt : i % bigrams.length < bigrams.length := Nat.mod_lt _ (by decide +kernel)
    rw [List.getD_eq_getElem?_getD, List.getElem?_eq_getElem hlt]
    exact List.getElem_mem hlt
  exact mem_bigrams (hmem _)

theorem computeLineHash_ne_rangeInteriorHash (idx : Nat) (line : String) :
    computeLineHash idx line ≠ rangeInteriorHash := by
  obtain ⟨a, ha, b, -, hhash⟩ := computeLineHash_eq_ofList idx line
  intro heq
  have hstar : [a, b] = ['*', '*'] := by
    rw [← String.toList_ofList (l := [a, b]), ← hhash, heq]
    rfl
  obtain ⟨rfl, -⟩ := List.cons.inj hstar
  exact absurd ha (by decide)

example : computeLineHash 1 "gamma" = "uw" := by decide +kernel

end JevCode.Hashline
