/-! Places in a text: byte offsets into its UTF-8 form, spans of such offsets, and line and column
numbers. Lines and columns count characters from one. -/
namespace Machine16

/-- The number of bytes of a text. -/
def byteLength (cs : List Char) : Nat := cs.foldr (fun c n => c.utf8Size + n) 0

@[simp] theorem byteLength_nil : byteLength [] = 0 := rfl

@[simp] theorem byteLength_cons (c : Char) (cs : List Char) :
    byteLength (c :: cs) = c.utf8Size + byteLength cs := rfl

@[simp] theorem byteLength_append (cs ds : List Char) :
    byteLength (cs ++ ds) = byteLength cs + byteLength ds := by
  induction cs with
  | nil => simp
  | cons c cs ih => simp [ih, Nat.add_assoc]

theorem byteLength_toList (s : String) : byteLength s.toList = s.utf8ByteSize := by
  have h (cs : List Char) : byteLength cs = (String.ofList cs).utf8ByteSize := by
    induction cs with
    | nil => simp
    | cons c cs ih =>
      rw [← List.singleton_append, String.ofList_append, String.utf8ByteSize_append,
        byteLength_append, ih, ← String.singleton_eq_ofList, String.utf8ByteSize_singleton]
      simp
  rw [h, String.ofList_toList]

/-- The longest beginning of a text that takes at most `n` bytes. -/
def takeBytes (n : Nat) : List Char → List Char
  | [] => []
  | c :: cs => if c.utf8Size ≤ n then c :: takeBytes (n - c.utf8Size) cs else []

/-- The text after its first `n` bytes. -/
def dropBytes (n : Nat) : List Char → List Char
  | [] => []
  | c :: cs => if c.utf8Size ≤ n then dropBytes (n - c.utf8Size) cs else c :: cs

theorem takeBytes_append_dropBytes (n : Nat) (cs : List Char) :
    takeBytes n cs ++ dropBytes n cs = cs := by
  induction cs generalizing n with
  | nil => rfl
  | cons c cs ih =>
    unfold takeBytes dropBytes
    split <;> simp [ih]

theorem dropBytes_suffix (n : Nat) (cs : List Char) : dropBytes n cs <:+ cs :=
  ⟨takeBytes n cs, takeBytes_append_dropBytes n cs⟩

theorem takeBytes_append (cs ds : List Char) : takeBytes (byteLength cs) (cs ++ ds) = cs := by
  induction cs with
  | nil =>
    cases ds with
    | nil => rfl
    | cons d ds =>
      have := Char.utf8Size_pos d
      simp [takeBytes]
      omega
  | cons c cs ih => simp [takeBytes, ih]

structure Span where
  start : Nat
  stop : Nat
  deriving DecidableEq, Repr

structure Location where
  line : Nat
  column : Nat
  deriving DecidableEq, Repr

structure LineSpan where
  start : Location
  stop : Location
  deriving DecidableEq, Repr

namespace Location

/-- The place after a character at this place. -/
def next (l : Location) (c : Char) : Location :=
  if c = '\n' then ⟨l.line + 1, 1⟩ else ⟨l.line, l.column + 1⟩

/-- The place at the end of a text that starts here. -/
def after (l : Location) (cs : List Char) : Location := cs.foldl next l

@[simp] theorem after_nil (l : Location) : l.after [] = l := rfl

@[simp] theorem after_append (l : Location) (cs ds : List Char) :
    l.after (cs ++ ds) = (l.after cs).after ds := by simp [after]

/-- The place of a byte offset. Offsets past the end of the text are at its end, and an offset inside of
a character has no place. -/
def ofOffset? (text : List Char) (offset : Nat) : Option Location :=
  let offset := min offset (byteLength text)
  let before := takeBytes offset text
  if byteLength before = offset then some (after ⟨1, 1⟩ before) else none

end Location

/-- The places where a span begins and ends, if both have one. -/
def Span.lines? (text : List Char) (s : Span) : Option LineSpan := do
  return ⟨← Location.ofOffset? text s.start, ← Location.ofOffset? text s.stop⟩

end Machine16
