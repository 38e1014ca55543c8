import Machine16.Assembly.Token

/-! Tokens grouped into one expression. The tokens are read once from left to right; what they
leave unfinished is kept on a stack, so the first token that no expression can go on with is
where reading stops. Operators of one precedence group to the left. -/
namespace Machine16.Grouping

/-- What has begun and waits for a value. -/
inductive Frame
  | group
  | operation (left : Expression) (operator : Operator)
  deriving DecidableEq, Repr

/-- What comes next. -/
inductive State
  | value (frames : List Frame)
  | struct (frames : List Frame)
  | structEnd (frames : List Frame) (struct : String)
  | symbol (frames : List Frame) (struct : String)
  | dot (frames : List Frame) (struct symbol : String)
  | member (frames : List Frame) (struct symbol : String)
  /-- A value has been read: an operator, a closing parenthesis or the end. -/
  | rest (frames : List Frame) (read : Expression)
  deriving DecidableEq, Repr

inductive Problem
  | unexpectedCharacter | unexpectedToken
  | missingValue | missingParen
  | missingStruct | missingStructEnd | missingSymbol | missingDot | missingMember
  deriving DecidableEq, Repr

def Problem.message : Problem → String
  | unexpectedCharacter => "unexpected character"
  | unexpectedToken => "unexpected token"
  | missingValue => "expected a value"
  | missingParen => "expected ')'"
  | missingStruct => "expected a structure name"
  | missingStructEnd => "expected '>'"
  | missingSymbol => "expected a symbol name"
  | missingDot => "expected '.'"
  | missingMember => "expected a member name"

/-- Finishes the operations that bind `e` at least as tight as `precedence`. -/
def reduce (precedence : Nat) : List Frame → Expression → List Frame × Expression
  | .operation left op :: fs, e =>
    if precedence ≤ op.precedence then reduce precedence fs (.binary op left e)
    else (.operation left op :: fs, e)
  | fs, e => (fs, e)

def step : State → Token → Except Problem State
  | .value fs, .number v => .ok (.rest fs (.literal v))
  | .value fs, .symbol n => .ok (.rest fs (.symbol n))
  | .value fs, .openParen => .ok (.value (.group :: fs))
  | .value fs, .less => .ok (.struct fs)
  | .value _, .unknown => .error .unexpectedCharacter
  | .value _, _ => .error .missingValue
  | .struct fs, .name s => .ok (.structEnd fs s)
  | .struct _, _ => .error .missingStruct
  | .structEnd fs s, .greater => .ok (.symbol fs s)
  | .structEnd .., _ => .error .missingStructEnd
  | .symbol fs s, .name n => .ok (.dot fs s n)
  | .symbol .., _ => .error .missingSymbol
  | .dot fs s n, .dot => .ok (.member fs s n)
  | .dot .., _ => .error .missingDot
  | .member fs s n, .name m => .ok (.rest fs (.member s n m))
  | .member .., _ => .error .missingMember
  | .rest fs e, .operator op =>
    let r := reduce op.precedence fs e
    .ok (.value (.operation r.2 op :: r.1))
  | .rest fs e, t =>
    match reduce 0 fs e with
    | (.group :: fs, e) => if t = .closeParen then .ok (.rest fs e) else .error .missingParen
    | _ => .error (if t = .unknown then .unexpectedCharacter else .unexpectedToken)

/-- The expression, if nothing is left open at the end of the tokens. -/
def finish : State → Except Problem Expression
  | .value _ => .error .missingValue
  | .struct _ => .error .missingStruct
  | .structEnd .. => .error .missingStructEnd
  | .symbol .. => .error .missingSymbol
  | .dot .. => .error .missingDot
  | .member .. => .error .missingMember
  | .rest fs e =>
    match reduce 0 fs e with
    | ([], e) => .ok e
    | _ => .error .missingParen

/-- Errors come with the offset of the token at fault, or of the end. -/
def readFrom (state : State) (stop : Nat) : List Lexeme → Except (Nat × Problem) Expression
  | [] =>
    match finish state with
    | .ok e => .ok e
    | .error p => .error (stop, p)
  | l :: ls =>
    match step state l.token with
    | .ok state => readFrom state stop ls
    | .error p => .error (l.span.start, p)

end Grouping

/-- Reads the text between two brackets. -/
def Expression.parse (text : List Char) : Except (Nat × Grouping.Problem) Expression :=
  Grouping.readFrom (.value []) (byteLength text) (Token.scan text)

example : (Expression.parse "$1 + $2 * $3 - !x".toList).toOption =
    some (.binary .subtract (.binary .add (.literal 1) (.binary .multiply (.literal 2) (.literal 3)))
      (.symbol "x")) := by
  decide +kernel

end Machine16
