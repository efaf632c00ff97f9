import ProCurrency.Lib.BitStream
import ProCurrency.Lib.Tokens
import ProCurrency.Store.TxDb

/-!
# Mnemonics

`MnemonicEncode`, `MnemonicDecode` and `MnemonicAddChecksum` (extkey.cpp). `mnLanguages` stands for the arrays of
wordlists/, which are read as lines. SHA-256 is a parameter. A string of C ends where its first zero byte is.
-/

namespace ProCurrency

namespace Mnemonic

/-- What the functions refuse, with the value they return. -/
inductive MnemonicError where
  /-- 1 -/
  | unknownLanguage
  /-- 2, of `MnemonicEncode` -/
  | entropyOutOfRange
  /-- 2, of `MnemonicDecode` -/
  | wordListTooLong
  /-- 3, of `MnemonicEncode` -/
  | wordExtractFailed (o : Nat)
  /-- 3, of `MnemonicDecode` -/
  | unknownWord (p : Bytes)
  /-- 4 -/
  | notDivisible
  /-- 5 -/
  | checksumMismatch
  /-- `mnLanguages` is read behind its end. -/
  | beyondTable
  deriving DecidableEq

def WLL_JAPANESE : Int := 3

def WLL_MAX : Int := 7

/-- `U+3000`. -/
def wide : Bytes := [0xe3, 0x80, 0x80]

/-! ## Text -/

/-- The scan of `ReplaceStrInPlace`; the next `skip` characters belong to a match. -/
def replaceFrom (search replace : Bytes) : Nat → Bytes → Bytes
  | _, [] => []
  | skip + 1, _ :: s => replaceFrom search replace skip s
  | 0, c :: s =>
      if search.isPrefixOf (c :: s) then replace ++ replaceFrom search replace (search.length - 1) s
      else c :: replaceFrom search replace 0 s

def replaceStrInPlace (subject search replace : Bytes) : Bytes := replaceFrom search replace 0 subject

/-- What the calls of `strtok` give, one after the other. -/
def strtok (s : Bytes) : List Bytes := Tokens.tokens 32 (s.takeWhile (· ≠ 0))

/-! ## Word lists -/

/-- The first loop of `GetWord`. -/
def skipWords : Nat → Bytes → Option Bytes
  | 0, pt => some pt
  | _ + 1, [] => none
  | o + 1, c :: pt => if pt = [] then none else if c = 10 then skipWords o pt else skipWords (o + 1) pt

/-- The second loop of `GetWord`. -/
def takeWord : Bytes → Option Bytes
  | [] => none
  | c :: pt => if c = 10 then some [] else (takeWord pt).map (c :: ·)

def getWord (o : Nat) (pwl : Bytes) : Option Bytes := (skipWords o pwl).bind takeWord

/-- The loop of `GetWordOffset`. -/
def findWord (p : Bytes) : Bytes → Nat → Nat → Bool → Option Nat
  | [], _, _, _ => none
  | b :: pt, i, c, f =>
      if b = 10 then (if f ∧ c = p.length then some i else findWord p pt (i + 1) 0 true)
      else if p.length ≤ c then findWord p pt i (c + 1) false
      else if f ∧ p.getD c 0 ≠ b then findWord p pt i (c + 1) false
      else findWord p pt i (c + 1) f

def getWordOffset (p pwl : Bytes) : Option Nat := findWord p pwl 0 0 true

/-! ## Groups of 11 bits -/

/-- The word that begins at bit `i`. -/
def wordAt (vIn : Bytes) (i : Nat) : Nat :=
  let s := i / 8
  let r := i % 8
  let b1 := (vIn.getD s 0).toNat
  let b2 := (vIn.getD (s + 1) 0).toNat
  let o := ((b1 <<< r) &&& 0xff) <<< (11 - 8)
  if 5 < r then
    let b3 := (vIn.getD (s + 2) 0).toNat
    (o ||| (b2 <<< (r - 5)) ||| (b3 >>> (8 - (r - 5)))) &&& 0x7ff
  else (o ||| (b2 >>> ((8 - (11 - 8)) - r))) &&& 0x7ff

/-- A word is written from bit `i` on. -/
def setWord (vEntropy : Bytes) (i o : Nat) : Bytes :=
  let el := vEntropy.length
  let s := i / 8
  let r := i % 8
  let vEntropy := BitStream.orByte vEntropy s ((o >>> (r + 3)) &&& 0x7ff)
  if s + 1 < el then
    if 5 < r then
      let vEntropy := BitStream.orByte vEntropy (s + 1) ((o >>> (r - 5)) &&& 0x7ff)
      if s + 2 < el then BitStream.orByte vEntropy (s + 2) ((o <<< (8 - (r - 5))) &&& 0x7ff) else vEntropy
    else BitStream.orByte vEntropy (s + 1) ((o <<< (5 - r)) &&& 0x7ff)
  else vEntropy

/-- The loop over `vWordInts`. -/
def setWords (vEntropy : Bytes) (i : Nat) : List Nat → Bytes
  | [] => vEntropy
  | o :: vWordInts => setWords (setWord vEntropy i o) (i + 11) vWordInts

/-- `vEntropy` of the words, the last byte filled up with clear bits. -/
def entropyOf (vWordInts : List Nat) : Bytes :=
  let nBits := vWordInts.length * 11
  setWords (List.replicate (nBits / 8 + if nBits % 8 = 0 then 0 else 1) 0) 0 vWordInts

/-! ## Encoding -/

section

variable (sha256 : Bytes → Bytes) (mnLanguages : Nat → Bytes)

/-- `mnLanguages[nLanguage]`, for a language that is not refused. -/
def wordList (nLanguage : Int) : Except MnemonicError Bytes :=
  if nLanguage < WLL_MAX then .ok (mnLanguages nLanguage.toNat) else .error .beyondTable

/-- The loop over `vWord`. -/
def appendWords (pwl : Bytes) (sWordList : Bytes) : List Nat → Except MnemonicError Bytes
  | [] => .ok sWordList
  | o :: vWord =>
      match getWord o pwl with
      | none => .error (.wordExtractFailed o)
      | some sWord => appendWords pwl ((if sWordList ≠ [] then sWordList ++ [32] else sWordList) ++ sWord) vWord

/-- `vWord`: the entropy, then as many bits of its hash as the entropy has blocks of 32 bits. -/
def wordsOf (vEntropy : Bytes) : List Nat :=
  let nCsSize := vEntropy.length / 4
  let ncb := nCsSize / 8 + if nCsSize % 8 ≠ 0 then 1 else 0
  let vIn := vEntropy ++ ((sha256 vEntropy).take ncb ++ List.replicate (32 - ncb) 0)
  let nBits := vEntropy.length * 8 + nCsSize
  (List.range ((nBits + 10) / 11)).map fun k => wordAt vIn (11 * k)

/-- `MnemonicEncode`: `sWordList`, which may have text already. -/
def mnemonicEncode (nLanguage : Int) (vEntropy sWordList : Bytes) : Except MnemonicError Bytes :=
  if nLanguage < 1 ∨ WLL_MAX < nLanguage then .error .unknownLanguage
  else if vEntropy.length / 4 < 1 ∨ 256 < vEntropy.length / 4 then .error .entropyOutOfRange
  else
    match wordList mnLanguages nLanguage with
    | .error e => .error e
    | .ok pwl =>
        match appendWords pwl sWordList (wordsOf sha256 vEntropy) with
        | .error e => .error e
        | .ok sWordList =>
            .ok (if nLanguage = WLL_JAPANESE then replaceStrInPlace sWordList [32] wide else sWordList)

/-! ## Decoding -/

/-- The loop over at most five words: `nHit` and `nMiss`. -/
def countHits (pwl : Bytes) : Nat → List Bytes → Nat × Nat
  | _, [] => (0, 0)
  | maxTries, p :: words =>
      let (nHit, nMiss) := match maxTries with
        | 0 => (0, 0)
        | maxTries + 1 => countHits pwl maxTries words
      if (getWordOffset p pwl).isSome then (nHit + 1, nMiss) else (nHit, nMiss + 1)

/-- `MnemonicDetectLanguage`. -/
def mnemonicDetectLanguage (sWordList : Bytes) : Int :=
  if 2048 ≤ sWordList.length then -1
  else
    match [1, 2, 3, 4, 5, 6].find? fun l =>
        let (nHit, nMiss) := countHits (mnLanguages l) 4 (strtok sWordList)
        decide (nMiss < nHit) with
    | some l => (l : Nat)
    | none => 0

/-- The loop over the words: `vWordInts`. -/
def wordInts (pwl : Bytes) : List Bytes → Except MnemonicError (List Nat)
  | [] => .ok []
  | p :: words =>
      match getWordOffset p pwl with
      | none => .error (.unknownWord p)
      | some ofs =>
          match wordInts pwl words with
          | .error e => .error e
          | .ok vWordInts => .ok (ofs :: vWordInts)

/-- The checksum behind the entropy in `vEntropy`, which has `nBits` bits of words. -/
def checkChecksum (nBits : Nat) (vEntropy : Bytes) : Except MnemonicError Bytes :=
  let nLenChecksum := nBits / 32
  let nBytesEntropy := (nBits - nLenChecksum) / 8
  let nBytesChecksum := nLenChecksum / 8 + if nLenChecksum % 8 = 0 then 0 else 1
  let vCS := (vEntropy.drop nBytesEntropy).take nBytesChecksum
  let vEntropy := vEntropy.take nBytesEntropy
  let r := nLenChecksum % 8
  let hash := (sha256 vEntropy).take nBytesChecksum
  let vCSTest :=
    if 0 < r then hash.modify (nBytesChecksum - 1) (· &&& UInt8.ofNat (((1 <<< r) - 1) <<< (8 - r))) else hash
  if vCSTest ≠ vCS then .error .checksumMismatch else .ok vEntropy

/-- `MnemonicDecode`: `vEntropy`. -/
def mnemonicDecode (nLanguage : Int) (sWordListIn : Bytes) (fIgnoreChecksum : Bool) : Except MnemonicError Bytes :=
  let sWordList := replaceStrInPlace sWordListIn wide [32]
  let nLanguage := if nLanguage = -1 then mnemonicDetectLanguage mnLanguages sWordList else nLanguage
  if nLanguage < 1 ∨ WLL_MAX < nLanguage then .error .unknownLanguage
  else if 2048 ≤ sWordList.length then .error .wordListTooLong
  else
    match wordList mnLanguages nLanguage with
    | .error e => .error e
    | .ok pwl =>
        match wordInts pwl (strtok sWordList) with
        | .error e => .error e
        | .ok vWordInts =>
            if !fIgnoreChecksum ∧ vWordInts.length % 3 ≠ 0 then .error .notDivisible
            else if fIgnoreChecksum then .ok (entropyOf vWordInts)
            else checkChecksum sha256 (vWordInts.length * 11) (entropyOf vWordInts)

/-! ## A checksum for given words -/

/-- `nLanguage` of `MnemonicAddChecksum`. -/
def languageFor (nLanguageIn : Int) (sWordListIn : Bytes) : Int :=
  if nLanguageIn = -1 then mnemonicDetectLanguage mnLanguages sWordListIn else nLanguageIn

/-- `MnemonicAddChecksum`: `sWordListOut`, whose caller hands over an empty string. -/
def mnemonicAddChecksum (nLanguageIn : Int) (sWordListIn sWordListOut : Bytes) : Except MnemonicError Bytes :=
  let nLanguage := languageFor mnLanguages nLanguageIn sWordListIn
  match mnemonicDecode sha256 mnLanguages nLanguage sWordListIn true with
  | .error e => .error e
  | .ok vEntropy =>
      match mnemonicEncode sha256 mnLanguages nLanguage vEntropy sWordListOut with
      | .error e => .error e
      | .ok sWordListOut =>
          match mnemonicDecode sha256 mnLanguages nLanguage sWordListOut false with
          | .error e => .error e
          | .ok _ => .ok sWordListOut

end

end Mnemonic

end ProCurrency
