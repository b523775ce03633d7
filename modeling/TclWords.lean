import TclWords.Session
import TclWords.Proofs.Shown
import TclWords.Proofs.Shown.Escape
import TclWords.Proofs.Shown.Word
import TclWords.Proofs.Failure
import TclWords.Proofs.Tiling
import TclWords.Proofs.Quoting
import TclWords.Proofs.Interchange
import TclWords.Proofs.Shown.Sequence
import TclWords.Proofs.Bracing
import TclWords.Proofs.Strictness
import TclWords.Proofs.Concatenation
import TclWords.Proofs.Sharing
import TclWords.Proofs.Spelling
import TclWords.Proofs.Spelling.Reading
import TclWords.Proofs.Ending
import TclWords.Proofs.Decoding
import TclWords.Proofs.Surroundings
import TclWords.Proofs.Kinds
import TclWords.Proofs.Passing
import TclWords.Proofs.Safety
import TclWords.Proofs.Verbatim
import TclWords.Proofs.Recovery
import TclWords.Proofs.Enclosing
import TclWords.Proofs.Dangling
import TclWords.Proofs.Utf8
import TclWords.Proofs.LostPlaces
import TclWords.Proofs.Bytes
import TclWords.Proofs.Files
