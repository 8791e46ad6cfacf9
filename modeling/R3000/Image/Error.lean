import R3000.Image.Exe
import R3000.Memory.Load

/-!
# Images that cannot be used
-/

namespace R3000

inductive GzipError
  | badHeader
  | fieldTooLong
  | corrupt
  | badChecksum
  | incomplete
  | truncated
deriving DecidableEq, Repr

def GzipError.cause : GzipError → String
  | .badHeader => "invalid gzip header"
  | .fieldTooLong => "gzip header field too long"
  | .corrupt => "corrupt deflate stream"
  | .badChecksum => "corrupt gzip stream does not have a matching checksum"
  | .incomplete => "incomplete deflate stream"
  | .truncated => "unexpected end of file"

inductive ImageError
  | gzip (e : GzipError)
  | exe (e : ExeError)
  | load (e : LoadError)
deriving DecidableEq, Repr

def ImageError.message : ImageError → String
  | .gzip e => "Gzip decompression error: " ++ e.cause
  | .exe e => e.message
  | .load e => e.message

end R3000
