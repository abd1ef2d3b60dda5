import BillGrammar.Lexicon.Table

/-! The built-in lexicon.  Braces are written by their code. -/

namespace BillGrammar.Table

def builtinSkeletons : List String :=
  [ "Projeto de lei \x7bpredicate\x7d",
    "Senado vota projeto de lei que \x7bpredicate\x7d",
    "AGORA É LEI! Senado aprova PL\x7bnumber,1000,99999,0\x7d, que \x7bpredicate\x7d" ]

def builtinPredicates : List String :=
  [ "obriga \x7bsubject:plural\x7d a \x7baction:infinitive,person\x7d",
    "proibe \x7bsubject:plural\x7d de \x7baction:infinitive,person\x7d",
    "obriga \x7bestablishment:plural\x7d a \x7baction:infinitive,establishment\x7d",
    "proibe \x7bestablishment:plural\x7d de \x7baction:infinitive,establishment\x7d",
    "proíbe venda de \x7bobject:plural\x7d em \x7bestablishment:plural\x7d",
    "determina que \x7bsubject:plural\x7d devem \x7baction:infinitive,person\x7d",
    "determina que \x7bestablishment:plural\x7d devem \x7baction:infinitive,establishment\x7d",
    "estabelece multa de R$\x7bnumber,0,1000,2\x7d para \x7bsubject:plural\x7d que \x7baction:plural,person\x7d",
    "estabelece multa de R$\x7bnumber,0,1000,2\x7d para \x7bestablishment:plural\x7d que \x7baction:plural,establishment\x7d",
    "prevê o pagamento de auxílio de R$\x7bnumber,0,1000,2\x7d mensais a \x7bsubject:plural\x7d",
    "destina \x7bnumber,1,105,0\x7d% do \x7bresource\x7d para o combate a \x7bproblem\x7d",
    "garante a \x7bsubject:plural\x7d o direito de \x7baction:infinitive,person\x7d",
    "prevê novo imposto sobre \x7bestablishment:plural\x7d que será usado no combate a \x7bproblem\x7d",
    "estabelece cota mínima de \x7bnumber,0.5,55\x7d% para \x7bsubject:plural\x7d em concursos públicos",
    "isenta \x7bsubject:plural\x7d do imposto de renda",
    "declara \x7bobject:plural\x7d como patrimônio cultural imaterial do Brasil",
    "torna obrigatório o uso de \x7bobject:plural\x7d em \x7bestablishment:plural\x7d durante \x7bdisease\x7d",
    "cria o Dia Nacional do \x7bsubject:singular\x7d",
    "institui a semana de conscientização sobre \x7bproblem\x7d",
    "criminaliza a discriminação contra \x7bsubject:plural\x7d em \x7bestablishment:plural\x7d",
    "autoriza \x7bsubject:plural\x7d a portar \x7bobject:plural\x7d para autodefesa",
    "regulamenta a profissão de \x7bsubject:singular\x7d",
    "estabelece que \x7bestablishment:plural\x7d devem ter banheiros especiais para \x7bsubject:plural\x7d",
    "cria voucher de R$\x7bnumber,50,500,2\x7d para \x7bsubject:plural\x7d comprarem \x7bobject:plural\x7d",
    "proíbe \x7bsubject:plural\x7d de frequentar \x7bestablishment:plural\x7d em horário comercial",
    "prevê a criação do Conselho Nacional de \x7bsubject:plural\x7d" ]

def builtinSubjects : List Noun :=
  [ ⟨"pessoa", "pessoas", .feminine⟩,
    ⟨"homem", "homens", .masculine⟩,
    ⟨"mulher", "mulheres", .feminine⟩,
    ⟨"transexual", "transexuais", .either⟩,
    ⟨"idoso", "idosos", .masculine⟩,
    ⟨"criança", "crianças", .feminine⟩,
    ⟨"adulto", "adultos", .masculine⟩,
    ⟨"pessoa com mais de \x7bnumber,2,100,0\x7d anos", "pessoas com mais de \x7bnumber,2,100,0\x7d anos", .feminine⟩,
    ⟨"pessoa com menos de \x7bnumber,2,100,0\x7d anos", "pessoas com menos de \x7bnumber,2,100,0\x7d anos", .feminine⟩,
    ⟨"pessoa com renda maior que R$\x7bnumber,1000,50000,2\x7d", "pessoas com renda maior que R$\x7bnumber,1000,50000,2\x7d", .feminine⟩,
    ⟨"pessoa com renda menor que R$\x7bnumber,1000,50000,2\x7d", "pessoas com renda menor que R$\x7bnumber,1000,50000,2\x7d", .feminine⟩,
    ⟨"portador de deficiência", "portadores de deficiência", .masculine⟩,
    ⟨"servidor público", "servidores públicos", .masculine⟩,
    ⟨"empregador", "empregadores", .masculine⟩,
    ⟨"empresário", "empresários", .masculine⟩,
    ⟨"empregado", "empregados", .masculine⟩,
    ⟨"motorista de aplicativo", "motoristas de aplicativo", .masculine⟩,
    ⟨"entregador de aplicativo", "entregadores de aplicativo", .masculine⟩,
    ⟨"dona de casa", "donas de casa", .feminine⟩,
    ⟨"prostituta", "prostitutas", .feminine⟩,
    ⟨"pessoa que realizou cirurgia de redução bariátrica", "pessoas que realizaram cirurgia de redução bariátrica", .feminine⟩,
    ⟨"pessoa que se infectou com \x7bdisease\x7d", "pessoas que se infectaram com \x7bdisease\x7d", .feminine⟩,
    ⟨"milionário", "milionários", .masculine⟩,
    ⟨"bilionário", "bilionários", .masculine⟩,
    ⟨"traficante", "traficantes", .masculine⟩,
    ⟨"minerador de Bitcoin", "mineradores de Bitcoin", .masculine⟩,
    ⟨"investidor", "investidores", .masculine⟩,
    ⟨"usuário de drogas", "usuários de drogas", .masculine⟩,
    ⟨"usuário de \x7bdrug\x7d", "usuários de \x7bdrug\x7d", .masculine⟩,
    ⟨"viciado em \x7bdrug\x7d", "viciados em \x7bdrug\x7d", .masculine⟩,
    ⟨"anarcocapitalista", "anarcocapitalistas", .masculine⟩,
    ⟨"nazista", "nazistas", .masculine⟩,
    ⟨"senador", "senadores", .masculine⟩,
    ⟨"grávida", "grávidas", .feminine⟩,
    ⟨"morador de rua", "moradores de rua", .masculine⟩,
    ⟨"vítima de \x7bproblem\x7d", "vítimas de \x7bproblem\x7d", .feminine⟩,
    ⟨"estudante", "estudantes", .masculine⟩,
    ⟨"funcionário público", "funcionários públicos", .masculine⟩,
    ⟨"professor", "professores", .masculine⟩,
    ⟨"influencer", "influencers", .masculine⟩,
    ⟨"tiktoker", "tiktokers", .masculine⟩,
    ⟨"youtuber", "youtubers", .masculine⟩,
    ⟨"gamer", "gamers", .masculine⟩,
    ⟨"otaku", "otakus", .masculine⟩,
    ⟨"cosplayer", "cosplayers", .masculine⟩,
    ⟨"streamer", "streamers", .masculine⟩,
    ⟨"programador", "programadores", .masculine⟩,
    ⟨"hacker ético", "hackers éticos", .masculine⟩,
    ⟨"desenvolvedor full-stack", "desenvolvedores full-stack", .masculine⟩,
    ⟨"analista de memes", "analistas de memes", .masculine⟩,
    ⟨"especialista em NFTs", "especialistas em NFTs", .masculine⟩,
    ⟨"trader de criptomoedas", "traders de criptomoedas", .masculine⟩,
    ⟨"coach quântico", "coaches quânticos", .masculine⟩,
    ⟨"terapeuta holístico", "terapeutas holísticos", .masculine⟩,
    ⟨"curador de conteúdo", "curadores de conteúdo", .masculine⟩,
    ⟨"pessoa que usa Linux", "pessoas que usam Linux", .feminine⟩,
    ⟨"usuário de iPhone", "usuários de iPhone", .masculine⟩,
    ⟨"fanático por café", "fanáticos por café", .masculine⟩,
    ⟨"vegano", "veganos", .masculine⟩,
    ⟨"crossfiteiro", "crossfiteiros", .masculine⟩,
    ⟨"praticante de yoga", "praticantes de yoga", .masculine⟩,
    ⟨"minimalista digital", "minimalistas digitais", .masculine⟩ ]

def builtinObjects : List ArticledNoun :=
  [ ⟨⟨"álcool em gel", "álcoois em gel", .masculine⟩, "o"⟩,
    ⟨⟨"máscara de proteção", "máscaras de proteção", .feminine⟩, "a"⟩,
    ⟨⟨"telefone celular", "telefones celulares", .masculine⟩, "o"⟩,
    ⟨⟨"água", "águas", .feminine⟩, "a"⟩,
    ⟨⟨"comida", "comidas", .feminine⟩, "a"⟩,
    ⟨⟨"cópia do Código de Defesa do Consumidor", "cópias do Código de Defesa do Consumidor", .feminine⟩, "a"⟩,
    ⟨⟨"arma", "armas", .feminine⟩, "a"⟩,
    ⟨⟨"medicamento", "medicamentos", .masculine⟩, "o"⟩,
    ⟨⟨"ingresso", "ingressos", .masculine⟩, "o"⟩,
    ⟨⟨"absorvente", "absorventes", .masculine⟩, "o"⟩,
    ⟨⟨"faca", "facas", .feminine⟩, "a"⟩,
    ⟨⟨"bitcoin", "bitcoins", .masculine⟩, "o"⟩,
    ⟨⟨"dogecoin", "dogecoins", .masculine⟩, "o"⟩,
    ⟨⟨"emoji de berinjela", "emojis de berinjela", .masculine⟩, "o"⟩,
    ⟨⟨"filtro do Instagram", "filtros do Instagram", .masculine⟩, "o"⟩,
    ⟨⟨"carregador de iPhone", "carregadores de iPhone", .masculine⟩, "o"⟩,
    ⟨⟨"fone sem fio", "fones sem fio", .masculine⟩, "o"⟩,
    ⟨⟨"powerbank", "powerbanks", .masculine⟩, "o"⟩,
    ⟨⟨"selfie stick", "selfie sticks", .masculine⟩, "o"⟩,
    ⟨⟨"óculos de realidade virtual", "óculos de realidade virtual", .masculine⟩, "o"⟩,
    ⟨⟨"drone", "drones", .masculine⟩, "o"⟩,
    ⟨⟨"smartwatch", "smartwatches", .masculine⟩, "o"⟩,
    ⟨⟨"protetor solar FPS 60+", "protetores solares FPS 60+", .masculine⟩, "o"⟩,
    ⟨⟨"copo stanley", "copos stanley", .masculine⟩, "o"⟩,
    ⟨⟨"tênis de corrida", "tênis de corrida", .masculine⟩, "o"⟩,
    ⟨⟨"suplemento de whey protein", "suplementos de whey protein", .masculine⟩, "o"⟩,
    ⟨⟨"livro de autoajuda", "livros de autoajuda", .masculine⟩, "o"⟩,
    ⟨⟨"cristal energético", "cristais energéticos", .masculine⟩, "o"⟩,
    ⟨⟨"óleo essencial", "óleos essenciais", .masculine⟩, "o"⟩,
    ⟨⟨"livro", "livros", .masculine⟩, "o"⟩,
    ⟨⟨"remédio", "remédios", .masculine⟩, "o"⟩,
    ⟨⟨"vacina", "vacinas", .feminine⟩, "a"⟩,
    ⟨⟨"cigarro", "cigarros", .masculine⟩, "o"⟩,
    ⟨⟨"cigarro eletrônico", "cigarros eletrônicos", .masculine⟩, "o"⟩ ]

def builtinEstablishments : List ArticledNoun :=
  [ ⟨⟨"restaurante", "restaurantes", .masculine⟩, "o"⟩,
    ⟨⟨"farmácia", "farmácias", .feminine⟩, "a"⟩,
    ⟨⟨"posto de gasolina", "postos de gasolina", .masculine⟩, "o"⟩,
    ⟨⟨"puteiro", "puteiros", .masculine⟩, "o"⟩,
    ⟨⟨"supermercado", "supermercados", .masculine⟩, "o"⟩,
    ⟨⟨"casa de show", "casas de show", .feminine⟩, "a"⟩,
    ⟨⟨"bar", "bares", .masculine⟩, "o"⟩,
    ⟨⟨"estacionamento", "estacionamentos", .masculine⟩, "o"⟩,
    ⟨⟨"banco", "bancos", .masculine⟩, "o"⟩,
    ⟨⟨"cinema", "cinemas", .masculine⟩, "o"⟩,
    ⟨⟨"motel", "motéis", .masculine⟩, "o"⟩,
    ⟨⟨"estabelecimento com área fechada", "estabelecimentos com áreas fechadas", .masculine⟩, "o"⟩,
    ⟨⟨"lanchonete", "lanchonetes", .feminine⟩, "a"⟩,
    ⟨⟨"hospital", "hospitais", .masculine⟩, "o"⟩,
    ⟨⟨"casa de massagem", "casas de massagem", .feminine⟩, "a"⟩,
    ⟨⟨"igreja", "igrejas", .feminine⟩, "a"⟩,
    ⟨⟨"hotel", "hotéis", .masculine⟩, "o"⟩,
    ⟨⟨"coworking", "coworkings", .masculine⟩, "o"⟩,
    ⟨⟨"startup", "startups", .feminine⟩, "a"⟩,
    ⟨⟨"centro de distribuição", "centros de distribuição", .masculine⟩, "o"⟩,
    ⟨⟨"dark kitchen", "dark kitchens", .feminine⟩, "a"⟩,
    ⟨⟨"loja de conveniência", "lojas de conveniência", .feminine⟩, "a"⟩,
    ⟨⟨"loja de departamentos", "lojas de departamentos", .feminine⟩, "a"⟩,
    ⟨⟨"outlet", "outlets", .masculine⟩, "o"⟩,
    ⟨⟨"shopping center", "shopping centers", .masculine⟩, "o"⟩,
    ⟨⟨"food truck", "food trucks", .masculine⟩, "o"⟩,
    ⟨⟨"café gourmet", "cafés gourmets", .masculine⟩, "o"⟩,
    ⟨⟨"barbearia moderna", "barbearias modernas", .feminine⟩, "a"⟩,
    ⟨⟨"salão de beleza", "salões de beleza", .masculine⟩, "o"⟩,
    ⟨⟨"academia de crossfit", "academias de crossfit", .feminine⟩, "a"⟩,
    ⟨⟨"estúdio de yoga", "estúdios de yoga", .masculine⟩, "o"⟩,
    ⟨⟨"clínica de estética", "clínicas de estética", .feminine⟩, "a"⟩,
    ⟨⟨"pet shop", "pet shops", .masculine⟩, "o"⟩,
    ⟨⟨"loja de produtos naturais", "lojas de produtos naturais", .feminine⟩, "a"⟩,
    ⟨⟨"escape room", "escape rooms", .feminine⟩, "a"⟩,
    ⟨⟨"casa de jogos", "casas de jogos", .feminine⟩, "a"⟩,
    ⟨⟨"lan house", "lan houses", .feminine⟩, "a"⟩,
    ⟨⟨"loja de eletrônicos", "lojas de eletrônicos", .feminine⟩, "a"⟩ ]

def builtinPersonActions : List Action :=
  [ ⟨"utilizar \x7bobject\x7d dentro de \x7bestablishment\x7d em horário comercial",
      "utilize \x7bobject\x7d dentro de \x7bestablishment\x7d em horário comercial",
      "utilizem \x7bobject\x7d dentro de \x7bestablishment\x7d em horário comercial"⟩,
    ⟨"agredir \x7bsubject\x7d",
      "agrida \x7bsubject\x7d",
      "agridam \x7bsubject\x7d"⟩,
    ⟨"praticar tentativa de homicídio",
      "pratique tentativa de homicídio",
      "pratiquem tentativa de homicídio"⟩,
    ⟨"criar leis",
      "crie leis",
      "criem leis"⟩,
    ⟨"fumar",
      "fume",
      "fumem"⟩,
    ⟨"fumar em \x7bestablishment\x7d",
      "fume em \x7bestablishment\x7d",
      "fumem em \x7bestablishment\x7d"⟩,
    ⟨"dirigir sob efeito de \x7bdrug\x7d",
      "dirija sob efeito de \x7bdrug\x7d",
      "dirijam sob efeito de \x7bdrug\x7d"⟩,
    ⟨"praticar atividades ao ar livre",
      "pratique atividades ao ar livre",
      "pratiquem atividades ao ar livre"⟩,
    ⟨"postar memes no horário comercial",
      "poste memes no horário comercial",
      "postem memes no horário comercial"⟩,
    ⟨"fazer lives durante reuniões",
      "faça lives durante reuniões",
      "façam lives durante reuniões"⟩,
    ⟨"usar filtros do Instagram em documentos oficiais",
      "use filtros do Instagram em documentos oficiais",
      "usem filtros do Instagram em documentos oficiais"⟩,
    ⟨"fazer unboxing em \x7bestablishment\x7d",
      "faça unboxing em \x7bestablishment\x7d",
      "façam unboxing em \x7bestablishment\x7d"⟩,
    ⟨"assistir TikTok durante o trabalho",
      "assista TikTok durante o trabalho",
      "assistam TikTok durante o trabalho"⟩,
    ⟨"fazer cosplay em ambiente profissional",
      "faça cosplay em ambiente profissional",
      "façam cosplay em ambiente profissional"⟩,
    ⟨"conversar sobre criptomoedas por mais de 5 minutos",
      "converse sobre criptomoedas por mais de 5 minutos",
      "conversem sobre criptomoedas por mais de 5 minutos"⟩,
    ⟨"falar mal do pineapple na pizza",
      "fale mal do pineapple na pizza",
      "falem mal do pineapple na pizza"⟩,
    ⟨"usar óculos de sol em ambiente fechado",
      "use óculos de sol em ambiente fechado",
      "usem óculos de sol em ambiente fechado"⟩,
    ⟨"jogar Pokemon GO durante expediente",
      "jogue Pokemon GO durante expediente",
      "joguem Pokemon GO durante expediente"⟩,
    ⟨"fazer carinha de emoji em fotos oficiais",
      "faça carinha de emoji em fotos oficiais",
      "façam carinha de emoji em fotos oficiais"⟩,
    ⟨"explicar NFTs para pessoas desinteressadas",
      "explique NFTs para pessoas desinteressadas",
      "expliquem NFTs para pessoas desinteressadas"⟩ ]

def builtinEstablishmentActions : List Action :=
  [ ⟨"disponibilizar \x7bobject\x7d grátis para \x7bsubject\x7d",
      "disponibilize \x7bobject\x7d grátis para \x7bsubject\x7d",
      "disponibilizem \x7bobject\x7d grátis para \x7bsubject\x7d"⟩,
    ⟨"oferecer desconto de \x7bnumber,0,100,0\x7d% para \x7bsubject\x7d",
      "ofereça desconto de \x7bnumber,0,100,0\x7d% para \x7bsubject\x7d",
      "ofereçam desconto de \x7bnumber,0,100,0\x7d% para \x7bsubject\x7d"⟩,
    ⟨"oferecer desconto de \x7bnumber,0,100,0\x7d% em \x7bobject\x7d para \x7bsubject\x7d",
      "ofereça desconto de \x7bnumber,0,100,0\x7d% em \x7bobject\x7d para \x7bsubject\x7d",
      "ofereçam desconto de \x7bnumber,0,100,0\x7d% em \x7bobject\x7d para \x7bsubject\x7d"⟩,
    ⟨"instalar Wi-Fi gratuito com velocidade mínima de \x7bnumber,10,1000,0\x7d Mbps",
      "instale Wi-Fi gratuito com velocidade mínima de \x7bnumber,10,1000,0\x7d Mbps",
      "instalem Wi-Fi gratuito com velocidade mínima de \x7bnumber,10,1000,0\x7d Mbps"⟩,
    ⟨"aceitar pagamento em criptomoedas",
      "aceite pagamento em criptomoedas",
      "aceitem pagamento em criptomoedas"⟩,
    ⟨"ter uma área instagramável obrigatória",
      "tenha uma área instagramável obrigatória",
      "tenham uma área instagramável obrigatória"⟩,
    ⟨"tocar apenas música brasileira dos anos 80",
      "toque apenas música brasileira dos anos 80",
      "toquem apenas música brasileira dos anos 80"⟩,
    ⟨"servir café expresso de graça para \x7bsubject\x7d",
      "sirva café expresso de graça para \x7bsubject\x7d",
      "sirvam café expresso de graça para \x7bsubject\x7d"⟩,
    ⟨"disponibilizar carregador universal gratuito",
      "disponibilize carregador universal gratuito",
      "disponibilizem carregador universal gratuito"⟩,
    ⟨"ter banheiro com papel higiênico",
      "tenha banheiro com papel higiênico",
      "tenham banheiro com papel higiênico"⟩,
    ⟨"oferecer aulas de TikTok para \x7bsubject\x7d acima de 60 anos",
      "ofereça aulas de TikTok para \x7bsubject\x7d acima de 60 anos",
      "ofereçam aulas de TikTok para \x7bsubject\x7d acima de 60 anos"⟩,
    ⟨"disponibilizar mesa de ping-pong para clientes",
      "disponibilize mesa de ping-pong para clientes",
      "disponibilizem mesa de ping-pong para clientes"⟩ ]

def builtinResources : List String :=
  [ "PIB",
    "valor arrecadado com impostos",
    "dinheiro do Auxílio Brasil",
    "verba da merenda escolar",
    "fundos de campanha eleitoral",
    "royalties do petróleo",
    "arrecadação dos pedágios",
    "lucros das loterias",
    "multas de trânsito",
    "FGTS abandonado",
    "dinheiro esquecido no Banco Central",
    "taxa de fiscalização da ANATEL",
    "contribuição sindical obrigatória",
    "arrecadação do ICMS sobre combustíveis",
    "Bolsa Família",
    "dinheiro do Fundo de Garantia",
    "imposto sobre \x7bsubject:plural\x7d",
    "imposto sobre \x7bestablishment:plural\x7d",
    "imposto sobre \x7bobject:plural\x7d",
    "imposto sobre importação de \x7bobject:plural\x7d" ]

def builtinProblems : List String :=
  [ "pandemia de \x7bdisease\x7d",
    "racismo",
    "homofobia",
    "heterofobia",
    "machismo",
    "transfobia",
    "anarcocapitalismo",
    "nazismo",
    "fascismo",
    "impostômetro",
    "liberalismo econômico",
    "homosexualismo",
    "tráfico de drogas",
    "tráfico de \x7bdrug:singular\x7d",
    "violência contra \x7bsubject\x7d",
    "aquecimento global",
    "vício em redes sociais",
    "fake news",
    "cyberbullying",
    "procrastinação digital",
    "ansiedade por notificações",
    "síndrome do impostor",
    "burnout profissional",
    "nomofobia (medo de ficar sem celular)",
    "FOMO (fear of missing out)",
    "addiction em séries da Netflix",
    "dependência de delivery",
    "síndrome do like infinito",
    "depressão pós-Black Friday",
    "ansiedade de não ter iPhone",
    "estresse por wifi lento",
    "trauma de bateria baixa",
    "síndrome de timeline vazia",
    "depressão por stories não visualizados" ]

def builtinDiseases : List String :=
  [ "COVID-19",
    "coronavirus",
    "dengue",
    "zika",
    "chikungunya",
    "malária",
    "peste negra",
    "AIDS",
    "HIV",
    "Síndrome de Estocolmo",
    "estatismo",
    "anarcocapitalismo",
    "síndrome de Down",
    "síndrome de Tourette",
    "síndrome de Asperger",
    "autismo",
    "autismo leve",
    "autismo severo",
    "síndrome do impostor",
    "burnout",
    "depressão",
    "ansiedade",
    "transtorno de déficit de atenção",
    "transtorno obsessivo-compulsivo",
    "transtorno bipolar",
    "esquizofrenia",
    "transtorno de personalidade múltipla",
    "transtorno de estresse pós-traumático",
    "transtorno de ansiedade generalizada",
    "transtorno de pânico",
    "fobia social" ]

def builtinDrugs : List String :=
  [ "maconha",
    "crack",
    "heroína",
    "cocaína",
    "anarcocapitalismo",
    "cerveja",
    "álcool",
    "açúcar",
    "cafeína",
    "dopamina digital",
    "likes do Instagram",
    "notificações do WhatsApp",
    "séries da Netflix",
    "compras online",
    "whey protein",
    "suplemento pré-treino",
    "cigarro eletrônico",
    "vape de morango",
    "pílula de emagrecimento",
    "remédio para dormir",
    "remédio para acordar" ]

def builtin : (t : Table) → List t.Entry
  | .skeletons => builtinSkeletons
  | .predicates => builtinPredicates
  | .subjects => builtinSubjects
  | .objects => builtinObjects
  | .establishments => builtinEstablishments
  | .personActions => builtinPersonActions
  | .establishmentActions => builtinEstablishmentActions
  | .resources => builtinResources
  | .problems => builtinProblems
  | .diseases => builtinDiseases
  | .drugs => builtinDrugs

end BillGrammar.Table
