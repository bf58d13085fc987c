import Levin.Core.Typing

/-!
# The parser of the tests (`tests/tests_core/test_connection.py`)

The tests put a `Mock` in the place of a parser, and set what its methods return.
-/

namespace Levin

open Framework

/-- A parser whose `handle_request` returns what is set for the chunk, or raises `ParseError`
where nothing is, and whose `handle_response` returns `[b"test"]`. Any other attribute of a
`Mock` is true. -/
structure Mock where
  returnValue : Bytes → Option (Parsed UInt8)

instance : ParserProtocol Mock UInt8 where
  connect p := p
  handleRequest p data := ((p.returnValue data).elim (.error .ParseError) .ok, p)
  handleResponse p response _ := ({ chunks := [Bytes.ascii "test"], exc := none }, response, p)
  pushSupport _ := true

end Levin
