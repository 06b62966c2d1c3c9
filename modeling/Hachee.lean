import Hachee.Lisp.Sequence
import Hachee.Foundation.Handler
import Hachee.Senn.Im.Typing
import Hachee.Senn.Im.Ime
import Hachee.Senn.Im.Inputting
import Hachee.Senn.Im.Converting
import Hachee.Senn.Fcitx.State
import Hachee.Senn.Fcitx.WellFormed
import Hachee.Senn.Fcitx.Commit
import Hachee.Senn.Win.State
import Hachee.Senn.Win.ProcessInput
import Hachee.Senn.Win.CanProcess
import Hachee.Senn.Win.Commit
import Hachee.Foundation.Loop
import Hachee.Kkc.Convert.Lattice
import Hachee.Foundation.Segmentation
import Hachee.Kkc.Convert.Viterbi2gram
import Hachee.Kkc.Convert.Best2gram
import Hachee.Kkc.Convert.Viterbi3gram
import Hachee.Kkc.Convert.Path3gram
import Hachee.DependencyParsing.ShiftReduce
import Hachee.DependencyParsing.Transitions
import Hachee.Foundation.InOrder
import Hachee.DependencyParsing.Oracle
import Hachee.DependencyParsing.GoldTree
import Hachee.DependencyParsing.OracleRun
import Hachee.Algorithm.ChuLiuEdmonds
import Hachee.Foundation.Contraction
import Hachee.Algorithm.BestEdges
import Hachee.Algorithm.CycleSearch
import Hachee.Algorithm.Contract
import Hachee.Algorithm.Expansion
import Hachee.Algorithm.Recursion
import Hachee.Algorithm.Solve
import Hachee.Foundation.Counting
import Hachee.LanguageModel.Ngram.Probability
import Hachee.LanguageModel.Ngram.Counts
import Hachee.Kkc.Convert.Kept3gram
import Hachee.Senn.Im.Kkc.Engine
import Hachee.Senn.Im.Editing
import Hachee.Senn.Im.LetterN
import Hachee.Senn.Consumed
import Hachee.Senn.Fcitx.SelectCandidate
import Hachee.Senn.Fcitx.CandidateLoop
import Hachee.Senn.Bin.KkcProxy
import Hachee.Kkc.Impl.ClassNgram.Score
import Hachee.Kkc.Impl.Lm.Dump
import Hachee.LanguageModel.Ngram.ClassCounts
import Hachee.Kkc.Impl.ClassNgram.Read
import Hachee.Kkc.Impl.ClassNgram.Agreement
import Hachee.Corpus
import Hachee.Kkc.Impl.Lm.Build
import Hachee.Kkc.Impl.Lm.Vocabularies
import Hachee.Kkc.Impl.ClassNgram.VocabularyFile
import Hachee.Kkc.Convert.Funcall2gram
import Hachee.Kkc.Impl.Lm.Kkc
import Hachee.Kkc.Impl.Lm.Execute
import Hachee.Kkc.Impl.ClassNgram.Convert
import Hachee.Kkc.Impl.ClassNgram.Counted
import Hachee.Kkc.Impl.ClassNgram.UnkVocabulary
import Hachee.Kkc.Impl.ClassNgram.ReadKkc
import Hachee.Kkc.Impl.ClassNgram.Corpora
import Hachee.Kkc.Impl.ClassNgram.Conversion
import Hachee.Kkc.Impl.ExDictBuilder
import Hachee.Kkc.Impl.Mirror.Markov
import Hachee.Kkc.Impl.SetExDict
import Hachee.Senn.Win.DirectMode
import Hachee.Senn.Win.Server
import Hachee.Senn.Fcitx.Predictions
import Hachee.Senn.Ibus.StatefulIme
import Hachee.Senn.Win.History
import Hachee.Senn.Ibus.Candidates
import Hachee.Senn.Ipc.Socket
import Hachee.LanguageModel.Ngram.ClassProbability
import Hachee.DependencyParsing.EasyFirst
import Hachee.DependencyParsing.EasyFirst.Training
import Hachee.DependencyParsing.EasyFirst.Runs
import Hachee.DependencyParsing.EasyFirst.Progress
import Hachee.Foundation.Collapse
import Hachee.Algorithm.Forest
import Hachee.DependencyParsing.EasyFirst.Attachments
import Hachee.Kkc.Convert.Paths2gram
import Hachee.Kkc.Convert.Boundary2gram
import Hachee.DependencyParsing.OnlyTree
import Hachee.Foundation.Mixture
import Hachee.LanguageModel.Ngram.EstimateWeights
import Hachee.LanguageModel.Ngram.HeldOut
import Hachee.LanguageModel.SavedVocabulary
import Hachee.Kkc.Impl.Lm.EstimateWeights
import Hachee.Algorithm.LongestCommonSubsequence
import Hachee.Lisp.Octets
import Hachee.Foundation.Rounding
import Hachee.Lisp.Number
import Hachee.Senn.Im.Kkc.NamedPipe
import Hachee.Senn.Win.Connection
import Hachee.Senn.Win.ConnectionTCP
import Hachee.Foundation.Fields
import Hachee.Senn.KkcEngine.UserDict
import Hachee.Senn.KkcEngine.UserDictLoad
import Hachee.Kkc.Eval
import Hachee.Foundation.Pages
import Hachee.Senn.Win.CandidateWindow
import Hachee.Senn.Emacs.Selectors
import Hachee.Senn.Emacs.Commands
import Hachee.Senn.Emacs.Choice
import Hachee.Senn.Emacs.EchoArea
import Hachee.Senn.Emacs.Runs
