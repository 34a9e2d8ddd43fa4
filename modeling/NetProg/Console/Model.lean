import NetProg.CString

/-! The console (`console.cpp` of projects 3 and 4, and its copy in `windows_cgi_server/main.cpp`).

    For every host an `NpShellRun` shows what the shell sends in a pane of the page and sends it the
    lines of a file, one after each read with a `%` in it. A byte is a character here. -/

namespace NetProg.Console

/-- What one `async_read_some` brings into a buffer of `size` bytes. -/
structure Chunk (size : ℕ) where
  data : List Char
  pos : 1 ≤ data.length
  fits : data.length ≤ size

/-- The stream that arrives in some reads. -/
def streamOf {size : ℕ} (chunks : List (Chunk size)) : List Char := chunks.flatMap (·.data)

/-- The size of `buffer`. -/
def bufferSize : ℕ := 4096

/-- `encode` for one character. -/
def encodeChar : Char → List Char
  | '&' => ['&', 'a', 'm', 'p', ';']
  | '"' => ['&', 'q', 'u', 'o', 't', ';']
  | '\'' => ['&', 'a', 'p', 'o', 's', ';']
  | '<' => ['&', 'l', 't', ';']
  | '>' => ['&', 'g', 't', ';']
  | c => [c]

/-- `encode`. -/
def encode (data : List Char) : List Char := data.flatMap encodeChar

/-- A loop of `write_to_console`: `new`, in which there is no `c`, for every `c`. -/
def replaceAll (c : Char) (new s : List Char) : List Char :=
  s.flatMap fun x => if x = c then new else [x]

/-- `&NewLine;`. -/
def newLine : List Char := ['&', 'N', 'e', 'w', 'L', 'i', 'n', 'e', ';']

/-- What `write_to_console` puts between the double quotes. -/
def quoted (response : List Char) : List Char :=
  replaceAll '\r' [] (replaceAll '\n' newLine response)

/-- What it puts before them, and after them. -/
def opening (id : List Char) : List Char :=
  "document.getElementById('".toList ++ id ++ "').innerHTML += ".toList

def closing : List Char := [';']

/-- The statement of `write_to_console`. -/
def statement (id response : List Char) : List Char :=
  opening id ++ '"' :: quoted response ++ '"' :: closing

/-- `NpShellRun`: the pane, the lines that are left, and what it has put out so far, to the page and to
    the shell. -/
structure NpShellRun where
  id : List Char
  command : List (List Char)
  console : List (List Char)
  sent : List (List Char)

namespace NpShellRun

/-- `start`, up to the first `do_read`. -/
def start (id file : List Char) : NpShellRun := ⟨id, getLines file, [], []⟩

/-- `write_to_console`. -/
def writeToConsole (s : NpShellRun) (response : List Char) : NpShellRun :=
  { s with console := s.console ++
      ["<script>".toList ++ statement s.id response ++ "</script>\n".toList] }

/-- The handler of `do_read`. -/
def doRead (s : NpShellRun) (data : List Char) : NpShellRun :=
  let response := encode data
  let s := s.writeToConsole response
  match s.command with
  | [] => s
  | line :: rest =>
    if '%' ∈ response then
      let s := (s.writeToConsole (encode line)).writeToConsole (' ' :: newLine)
      { s with sent := s.sent ++ [line ++ ['\n']], command := rest }
    else s

/-- The whole dialogue, read by read. -/
def run {size : ℕ} (s : NpShellRun) (chunks : List (Chunk size)) : NpShellRun :=
  chunks.foldl (fun s c => s.doRead c.data) s

end NpShellRun
end NetProg.Console
