import Mathlib

/-!
# `kernel/trace/trace_events_filter.c`: the patterns of string fields

A pattern is its bytes before the NUL; memory is a list of bytes, and behind it reads as 0.
-/

namespace LinuxKernel.Trace

inductive RegexType
  | full | frontOnly | middleOnly | endOnly
  deriving DecidableEq

/-- The loop of `filter_parse_regex` over `n` more bytes: the type, where `search` starts, and the
buffer. -/
def parseRegexLoop (buff : List UInt8) : ℕ → ℕ → RegexType → ℕ → RegexType × ℕ × List UInt8
  | 0, _, type, search => (type, search, buff)
  | n + 1, i, type, search =>
    if buff.getD i 0 = 42 then
      if i = 0 then parseRegexLoop buff n (i + 1) .endOnly 1
      else (if type = .endOnly then .middleOnly else .frontOnly, search, buff.set i 0)
    else parseRegexLoop buff n (i + 1) type search

/-- `filter_build_regex` for `OP_GLOB`: the type, the pattern and `not`. -/
def filterBuildRegex (pattern : List UInt8) : RegexType × List UInt8 × Bool :=
  let neg := pattern.headD 0 == 33
  let buff := if neg then pattern.tail else pattern
  let (type, search, buff) := parseRegexLoop buff buff.length 0 .full 0
  (type, (buff.drop search).takeWhile (· != 0), neg)

/-- `strncmp(s, t, n) == 0`. -/
def strncmp : ℕ → List UInt8 → List UInt8 → Bool
  | 0, _, _ => true
  | n + 1, s, t => s.headD 0 == t.headD 0 && (s.headD 0 == 0 || strncmp n s.tail t.tail)

/-- The loop of `strnstr`, with `memcmp`. -/
def strnstr (s2 : List UInt8) : ℕ → List UInt8 → Bool
  | 0, _ => s2.isEmpty
  | len + 1, s1 =>
    if s2.length ≤ len + 1 then s1.take s2.length == s2 || strnstr s2 len s1.tail else false

def regexMatch (type : RegexType) (str pattern : List UInt8) (len : ℕ) : Bool :=
  match type with
  | .full => strncmp len str pattern
  | .frontOnly => strncmp pattern.length str pattern
  | .middleOnly => strnstr pattern len str
  | .endOnly => decide (pattern.length ≤ len - 1)
      && (str.drop (len - 1 - pattern.length)).take pattern.length == pattern

/-- A string field: the array, the bytes of the recorded length, or what is pointed to. -/
inductive StringField
  | array (bytes : List UInt8)
  | dynamic (bytes : List UInt8)
  | pointer (bytes : List UInt8)

def StringField.bytes : StringField → List UInt8
  | .array bytes | .dynamic bytes | .pointer bytes => bytes

/-- The length that `filter_pred_string`, `filter_pred_strloc` and `filter_pred_pchar` pass. -/
def StringField.len : StringField → ℕ
  | .array bytes | .dynamic bytes => bytes.length
  | .pointer bytes => (bytes.takeWhile (· != 0)).length + 1

/-- The predicate `field ~ "pattern"`. -/
def filterPredGlob (field : StringField) (pattern : List UInt8) : Bool :=
  let (type, search, neg) := filterBuildRegex pattern
  regexMatch type field.bytes search field.len ^^ neg

end LinuxKernel.Trace
