import Dicker.Shared.Wire

/-! Reading a request and building a response head (server/http.cxx). Strings are bytes. -/

namespace Dicker.Server

def ascii (s : String) : Bytes := s.toList.map fun c => UInt8.ofNat c.toNat

structure HttpRequest where
  method : Bytes
  target : Bytes
  path : Bytes
  version : Bytes
  headers : List (Bytes × Bytes)
  deriving DecidableEq

def headerEndFrom (i : ℕ) : Bytes → ℕ
  | a :: b :: c :: d :: rest =>
    if a = 0x0D ∧ b = 0x0A ∧ c = 0x0D ∧ d = 0x0A then i + 4
    else headerEndFrom (i + 1) (b :: c :: d :: rest)
  | _ => 0

def httpHeaderEnd (data : Bytes) : ℕ := headerEndFrom 0 data

/-- `std::string::find` from position `i` on, with `text` what stands there. -/
def searchFrom (needle : Bytes) (i : ℕ) : Bytes → Option ℕ
  | [] => none
  | x :: text => if needle.isPrefixOf (x :: text) then some i else searchFrom needle (i + 1) text

def findFrom (needle text : Bytes) (pos : ℕ) : Option ℕ := searchFrom needle pos (text.drop pos)

def crlf : Bytes := [0x0D, 0x0A]

def space : Bytes := [0x20]

def blank (b : UInt8) : Bool := b == 0x20 || b == 0x09

def trim (s : Bytes) : Bytes := (s.dropWhile blank).rdropWhile blank

def lower (s : Bytes) : Bytes := s.map fun b => if 0x41 ≤ b ∧ b ≤ 0x5A then b + 0x20 else b

def headerLine (line : Bytes) : Option (Bytes × Bytes) :=
  (findFrom [0x3A] line 0).map fun colon =>
    (lower (trim (line.take colon)), trim (line.drop (colon + 1)))

/-- The header lines from `pos` on; every turn moves `pos` forward. -/
def headersFrom (text : Bytes) : ℕ → ℕ → List (Bytes × Bytes)
  | 0, _ => []
  | fuel + 1, pos =>
    if pos < text.length then
      let next := (findFrom crlf text pos).getD text.length
      if next = pos then []
      else (headerLine ((text.drop pos).take (next - pos))).toList ++
        headersFrom text fuel (next + 2)
    else []

def parseHttpRequest (text : Bytes) : Option HttpRequest := do
  let lineEnd ← findFrom crlf text 0
  let requestLine := text.take lineEnd
  let sp1 ← findFrom space requestLine 0
  let sp2 ← findFrom space requestLine (sp1 + 1)
  let method := requestLine.take sp1
  let target := (requestLine.drop (sp1 + 1)).take (sp2 - sp1 - 1)
  if method = [] ∨ target = [] then none
  else
    let path := match findFrom [0x3F] target 0 with
      | none => target
      | some query => target.take query
    some ⟨method, target, path, requestLine.drop (sp2 + 1),
      headersFrom text text.length (lineEnd + 2)⟩

def httpResponseHeaders (status : ℕ) (reason contentType : Bytes) (contentLength : Int)
    (extra : List (Bytes × Bytes)) : Bytes :=
  ascii "HTTP/1.1 " ++ ascii (toString status) ++ space ++ reason ++ crlf ++
    (if contentType = [] then [] else ascii "Content-Type: " ++ contentType ++ crlf) ++
    (if 0 ≤ contentLength then
      ascii "Content-Length: " ++ ascii (toString contentLength) ++ crlf else []) ++
    ascii "Server: dicker" ++ crlf ++
    extra.flatMap (fun h => h.1 ++ ascii ": " ++ h.2 ++ crlf) ++ crlf

end Dicker.Server
