import Rolog.RoundTrip
import Rolog.CallCollisions
import Rolog.AnswerCollisions
import Rolog.Agreement
import Rolog.Termination
import Rolog.Answers
import Rolog.Brackets
import Rolog.Poisoning
import Rolog.Guards
import Rolog.Vectors
import Rolog.Missing
import Rolog.ListAnswers
import Rolog.Utf8
import Rolog.Names
import Rolog.TailCollisions
import Rolog.CompText
import Rolog.LibraryPath
import Rolog.Consult
import Rolog.ReferenceSpec
import Rolog.DecodeRefsSpec
import Rolog.Origins
import Rolog.ParseSound
import Rolog.WriteRead
import Rolog.Derivations
