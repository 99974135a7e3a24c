/-
  The clear-signed Release file (`cleartext_payload` and `_fetch_release` of
  `mkosi/debian/generate_lock.py`).

  The payload of InRelease is found by searching for whole lines in the same
  text.  `IsClearsigned` is the framing of RFC 4880, stated on its own: the lines
  of the text with their dash escapes between the armor lines.
-/
import RulesMkosi.Lib.Codec
import RulesMkosi.DebianLock

namespace RulesMkosi.Debian

/-! ## Clear-signed text -/

/-- A line and how it may stand in the message: a line that starts with a dash has to be escaped. -/
inductive Escapes : Str → Str → Prop
  | plain {line : Str} (h : line.head? ≠ some '-') : Escapes line line
  | dash (line : Str) : Escapes line ('-' :: ' ' :: line)

def signedHeader : Str := "-----BEGIN PGP SIGNED MESSAGE-----".toList

def signatureHeader : Str := "-----BEGIN PGP SIGNATURE-----".toList

/-- Lines joined by newlines. -/
def joinLines (lines : List Str) : Str := ['\n'].intercalate lines

/-- The message frames the lines: the header line, Hash headers, a blank line, the lines with their
    escapes, and the signature block. -/
structure IsClearsigned (lines : List Str) (message : Str) : Prop where
  framed : ∃ hashes escaped signature,
    hashes ≠ [] ∧ (∀ hash ∈ hashes, hash ≠ [] ∧ '\n' ∉ hash) ∧ (∀ line ∈ signature, '\n' ∉ line) ∧
      List.Forall₂ Escapes lines escaped ∧
      message = joinLines (signedHeader :: hashes ++ [] :: escaped ++ signatureHeader :: signature)
  no_newline : ∀ line ∈ lines, '\n' ∉ line

/-- The codec of the library is UTF-8. -/
structure Library.IsUtf8 (L : Library) : Prop where
  decode : L.decodeUtf8 = utf8Decode
  encode : L.encodeUtf8 = utf8Encode

/-! ## Lines -/

theorem Escapes.unescape {line escaped : Str} (h : Escapes line escaped) :
    unescapeDash escaped = line := by
  cases h with
  | dash => rfl
  | plain hdash =>
    rw [unescapeDash]
    rintro rest rfl
    exact hdash rfl

theorem Escapes.no_newline {line escaped : Str} (h : Escapes line escaped) (hline : '\n' ∉ line) :
    '\n' ∉ escaped := by
  cases h with
  | plain _ => exact hline
  | dash => simpa using hline

/-- An escaped line starts with one dash, so it is not the header of the signature. -/
theorem Escapes.ne_signatureHeader {line escaped : Str} (h : Escapes line escaped) :
    escaped ≠ signatureHeader := by
  rintro rfl
  cases h with
  | plain hdash => exact hdash rfl

theorem map_unescapeDash {lines escaped : List Str} (h : List.Forall₂ Escapes lines escaped) :
    escaped.map unescapeDash = lines := by
  induction h with
  | nil => rfl
  | cons hline _ ih => rw [List.map_cons, hline.unescape, ih]

/-- `lines.index` finds the first line of its kind from the start on. -/
theorem indexFrom_append {before rest : List Str} {line : Str} {start : ℕ}
    (hstart : start ≤ before.length) (h : line ∉ before.drop start) :
    indexFrom (before ++ line :: rest) line start = .ok before.length := by
  have hdrop : (before ++ line :: rest).drop start = before.drop start ++ line :: rest := by
    rw [List.drop_append_of_le_length hstart]
  have hfind : (before.drop start ++ line :: rest).findIdx? (· = line) =
      some (before.length - start) := by
    rw [List.findIdx?_append, List.findIdx?_eq_none_iff.2]
    · simp [List.findIdx?_cons]
    · intro other hother
      simpa using fun heq : other = line => h (heq ▸ hother)
  rw [indexFrom, hdrop, hfind]
  simp only
  rw [Nat.add_sub_cancel' hstart]

/-- The text between the blank line and the signature block. -/
theorem payloadText_framed {hashes escaped signature : List Str}
    (hhashes : ∀ hash ∈ hashes, hash ≠ [] ∧ '\n' ∉ hash)
    (hescaped : ∀ line ∈ escaped, '\n' ∉ line ∧ line ≠ signatureHeader)
    (hsignature : ∀ line ∈ signature, '\n' ∉ line) :
    payloadText (joinLines (signedHeader :: hashes ++ [] :: escaped ++ signatureHeader :: signature)) =
      .ok (joinLines (escaped.map unescapeDash) ++ ['\n']) := by
  have hsplit : (joinLines (signedHeader :: hashes ++ [] :: escaped ++
      signatureHeader :: signature)).splitOn '\n' =
      signedHeader :: hashes ++ [] :: escaped ++ signatureHeader :: signature := by
    refine List.splitOn_intercalate _ (fun line hline => ?_) (by simp)
    simp only [List.cons_append, List.mem_cons, List.mem_append] at hline
    rcases hline with rfl | (hline | rfl | hline) | rfl | hline
    · decide
    · exact (hhashes line hline).2
    · simp
    · exact (hescaped line hline).1
    · decide
    · exact hsignature line hline
  have hstart : indexFrom (signedHeader :: hashes ++ [] :: escaped ++ signatureHeader :: signature)
      signedHeader 0 = .ok 0 :=
    @indexFrom_append [] _ _ _ (Nat.zero_le _) (by simp)
  have hblank : indexFrom (signedHeader :: hashes ++ [] :: escaped ++ signatureHeader :: signature)
      [] 0 = .ok (hashes.length + 1) := by
    have h := @indexFrom_append (signedHeader :: hashes)
      (escaped ++ signatureHeader :: signature) [] 0 (Nat.zero_le _) (by
        intro hmem
        rcases List.mem_cons.1 hmem with heq | hmem
        · exact absurd heq (by decide)
        · exact (hhashes [] hmem).1 rfl)
    simpa using h
  have hstop : indexFrom (signedHeader :: hashes ++ [] :: escaped ++ signatureHeader :: signature)
      signatureHeader (hashes.length + 1 + 1) =
        .ok (hashes.length + 1 + 1 + escaped.length) := by
    have h := @indexFrom_append (signedHeader :: hashes ++ [] :: escaped) signature
      signatureHeader (hashes.length + 1 + 1) (by simp) (by
        rw [List.drop_append, List.drop_eq_nil_of_le (by simp)]
        simp only [List.length_cons, List.nil_append]
        have hone : hashes.length + 1 + 1 - (hashes.length + 1) = 1 := by omega
        rw [hone, List.drop_one, List.tail_cons]
        exact fun hmem => (hescaped _ hmem).2 rfl)
    rw [h]
    simp only [List.length_append, List.length_cons, Except.ok.injEq]
    omega
  have hbody : ((signedHeader :: hashes ++ [] :: escaped ++ signatureHeader :: signature).take
      (hashes.length + 1 + 1 + escaped.length)).drop (hashes.length + 1 + 1) = escaped := by
    have hbefore : signedHeader :: hashes ++ [] :: escaped ++ signatureHeader :: signature =
        (signedHeader :: hashes ++ [[]]) ++ (escaped ++ signatureHeader :: signature) := by simp
    have hlength : (signedHeader :: hashes ++ [([] : Str)]).length = hashes.length + 1 + 1 := by simp
    rw [hbefore, ← hlength, List.take_append, List.take_of_length_le (by omega), List.drop_left']
    · simp
    · rfl
  rw [payloadText, hsplit]
  show (indexFrom _ signedHeader 0 >>= _) = _
  rw [hstart, ok_bind, hblank, ok_bind]
  show (indexFrom _ signatureHeader (hashes.length + 1 + 1) >>= _) = _
  rw [hstop, ok_bind]
  show (pure (joinLines (List.map unescapeDash ((List.take _ _).drop _)) ++ ['\n']) : Except _ _) = _
  rw [hbody]
  rfl

/-! ## The release files -/

section
variable {L : Library} (hcodec : L.IsUtf8) {lines : List Str} {message : Str}
  (h : IsClearsigned lines message)
include hcodec h

/-- The payload is the lines, with one newline behind the last one. -/
theorem cleartextPayload_eq :
    cleartextPayload L (utf8Encode message) = .ok (utf8Encode (joinLines lines) ++ [0x0A]) := by
  obtain ⟨hashes, escaped, signature, -, hhashes, hsignature, hescapes, rfl⟩ := h.framed
  have hescaped : ∀ line ∈ escaped, '\n' ∉ line ∧ line ≠ signatureHeader := by
    intro line hline
    obtain ⟨original, horiginal, hescape⟩ := forall₂_mem_right hescapes hline
    exact ⟨hescape.no_newline (h.no_newline original horiginal), hescape.ne_signatureHeader⟩
  rw [cleartextPayload, hcodec.decode, utf8Decode_utf8Encode]
  simp only
  rw [payloadText_framed hhashes hescaped hsignature, ok_bind, map_unescapeDash hescapes,
    hcodec.encode, utf8Encode_append]
  rfl

end

/-- **Clear-sign decoding.**  For every framing of the lines of a Release text, the payload is the
    lines joined by newlines with one final newline, and the only Release contents that are accepted
    with it are the joined lines, with and without a final newline. -/
theorem cleartextPayload_framing (L : Library) (hcodec : L.IsUtf8) (lines : List Str) (message : Str)
    (h : IsClearsigned lines message) :
    cleartextPayload L (utf8Encode message) = .ok (utf8Encode (joinLines lines ++ ['\n'])) ∧
      ∀ (url base : String) (fetcher : Fetcher) (release releaseGpg : Bytes),
        fetcher (url ++ "/" ++ base ++ "/InRelease") = .ok (utf8Encode message) →
        fetcher (url ++ "/" ++ base ++ "/Release") = .ok release →
        fetcher (url ++ "/" ++ base ++ "/Release.gpg") = .ok releaseGpg →
        ∀ result, fetchRelease L url base fetcher = .ok result ↔
          result = (utf8Encode message, release, releaseGpg) ∧
            (release = utf8Encode (joinLines lines ++ ['\n']) ∨
              release = utf8Encode (joinLines lines)) := by
  have hpayload := cleartextPayload_eq hcodec h
  have hnewline : utf8Encode (joinLines lines ++ ['\n']) = utf8Encode (joinLines lines) ++ [0x0A] := by
    rw [utf8Encode_append]
    rfl
  rw [hnewline]
  refine ⟨hpayload, fun url base fetcher release releaseGpg hmessage hrelease hgpg result => ?_⟩
  simp only [fetchRelease, hmessage, hrelease, hgpg, hpayload, ok_bind, bind_eq_ok, exists_unit,
    raiseIf_eq_ok, pure_eq_ok, not_and_or, not_not, ne_eq, List.append_left_inj]
  constructor
  · rintro ⟨hcontent, rfl⟩
    exact ⟨rfl, hcontent.imp Eq.symm Eq.symm⟩
  · rintro ⟨rfl, hcontent⟩
    exact ⟨hcontent.imp Eq.symm Eq.symm, rfl⟩

/-- A library with Python's codec. -/
def utf8Library : Library where
  decodeUtf8 := utf8Decode
  lower := List.map Char.toLower
  encodeUtf8 := utf8Encode
  sha256 _ := String.ofList (List.replicate 64 '0')
  sha256_digest _ := by decide
  decompress _ := .error "Input format not supported by decoder"
  alphabet := asciiAlphabet

/-- A text with a line that looks like the header of a signature. -/
def armoredLines : List Str := ["Suite: a".toList, [], signatureHeader]

def armoredMessage : Str :=
  joinLines [signedHeader, "Hash: SHA256".toList, [], "- Suite: a".toList, [],
    '-' :: ' ' :: signatureHeader, signatureHeader, []]

theorem cleartextPayload_framing_example :
    cleartextPayload utf8Library (utf8Encode armoredMessage) =
      .ok (utf8Encode (joinLines armoredLines ++ ['\n'])) := by
  have h : IsClearsigned armoredLines armoredMessage := by
    refine ⟨⟨["Hash: SHA256".toList], ["- Suite: a".toList, [], '-' :: ' ' :: signatureHeader], [[]],
      by simp, by decide, by simp, ?_, rfl⟩, by decide⟩
    exact .cons (.dash _) (.cons (.plain (by simp)) (.cons (.dash _) .nil))
  exact (cleartextPayload_framing utf8Library ⟨rfl, rfl⟩ armoredLines armoredMessage h).1

end RulesMkosi.Debian
